import EdgeSlice.Sdn.Runs

namespace EdgeSlice.Sdn

open Function

/-- The meters 1 to `k` are taken. -/
def Numbered (k : ℕ) (g : SwitchConfig) : Prop := ∀ m, 1 ≤ m → (g.meters.get m = none ↔ k < m)

theorem Numbered.firstFree {k : ℕ} {g : SwitchConfig} (h : Numbered k g) :
    g.meters.firstFree 1 = k + 1 := by
  refine IdTable.firstFree_eq ((h (k + 1) (by omega)).mpr (by omega)) (by omega) ?_
  intro m hm hmk hfree
  have := (h m hm).mp hfree
  omega

theorem Numbered.putMeter {k : ℕ} {g : SwitchConfig} (h : Numbered k g) (x : Meter) :
    Numbered (k + 1) (g.putMeter (k + 1) x) := by
  intro m hm
  rw [SwitchConfig.putMeter]
  by_cases hmk : m = k + 1
  · rw [hmk, IdTable.put_get_self]
    exact iff_of_false (Option.some_ne_none x) (by omega)
  · rw [IdTable.put_get_of_ne _ _ hmk, h m hm]
    omega

namespace Network

variable {net : Network}

theorem clear_now (net : Network) (before : Datastore) : ∀ s < net.switches,
    ((List.range net.switches).foldl Controller.clear (Traced.start before)).now s = .empty := by
  refine Fold.range_induction (P := fun i (c : Controller) ↦ ∀ s < i, c.now s = .empty) ?_ ?_
  · intro s hs
    omega
  · intro i _ c hc s hs
    rw [Controller.clear, Controller.request_now]
    by_cases hsi : s = i
    · rw [hsi, update_self]
    · rw [update_of_ne hsi]
      exact hc s (by omega)

/-- The loops over the meters when the first `i` switches have got their meter `k + 1`. -/
structure MetersAdded (net : Network) (k i : ℕ) (x : (ℕ → ℕ → ℕ → ℕ) × Controller) : Prop where
  numbered : ∀ s < net.switches, Numbered (if s < i then k + 1 else k) (x.2.now s)
  mL : ∀ s < net.switches, ∀ u, ∀ t < 2, meterNum u t ≤ (if s < i then k + 1 else k) →
    x.1 u t s = meterNum u t
  flows : ∀ s < net.switches, ∀ id, (x.2.now s).flows.get id = none

theorem MetersAdded.next {k : ℕ} {x : (ℕ → ℕ → ℕ → ℕ) × Controller}
    (h : net.MetersAdded k net.switches x) : net.MetersAdded (k + 1) 0 x := by
  refine ⟨fun s hs ↦ ?_, fun s hs u t ht hle ↦ ?_, h.flows⟩
  · have hn := h.numbered s hs
    rw [if_pos hs] at hn
    rwa [if_neg (Nat.not_lt_zero s)]
  · rw [if_neg (Nat.not_lt_zero s)] at hle
    exact h.mL s hs u t ht (by rwa [if_pos hs])

theorem MetersAdded.addMeter {e u i : ℕ} {x : (ℕ → ℕ → ℕ → ℕ) × Controller} (hi : i < net.switches)
    (hu : u < 2) (h : net.MetersAdded (2 * e + u) i x) (kbps : ℤ) :
    net.MetersAdded (2 * e + u) (i + 1)
      (update x.1 e (update (x.1 e) u (update (x.1 e u) i (x.2.addMeter i kbps).1)),
        (x.2.addMeter i kbps).2) := by
  have hi' := h.numbered i hi
  rw [if_neg (lt_irrefl i)] at hi'
  have hnum : (x.2.addMeter i kbps).1 = 2 * e + u + 1 := hi'.firstFree
  have hnow : (x.2.addMeter i kbps).2.now =
      update x.2.now i ((x.2.now i).putMeter (2 * e + u + 1) ⟨kbps, 100, kbps, 100⟩) := by
    rw [← hnum]
    rfl
  refine ⟨fun s hs ↦ ?_, fun s hs v t ht hle ↦ ?_, fun s hs id ↦ ?_⟩
  · rw [hnow]
    by_cases hsi : s = i
    · rw [hsi, update_self, if_pos (Nat.lt_succ_self i)]
      exact hi'.putMeter _
    · rw [update_of_ne hsi]
      have hn := h.numbered s hs
      by_cases hlt : s < i
      · rw [if_pos hlt] at hn
        rwa [if_pos (by omega)]
      · rw [if_neg hlt] at hn
        rwa [if_neg (by omega)]
  · dsimp only
    by_cases hnew : v = e ∧ t = u ∧ s = i
    · obtain ⟨rfl, rfl, rfl⟩ := hnew
      rw [update_self, update_self, update_self, hnum, meterNum]
    · have hold : update x.1 e (update (x.1 e) u (update (x.1 e u) i (x.2.addMeter i kbps).1)) v t s =
          x.1 v t s := by
        by_cases hve : v = e
        · subst hve
          rw [update_self]
          by_cases htu : t = u
          · subst htu
            rw [update_self, update_of_ne (fun hsi ↦ hnew ⟨rfl, rfl, hsi⟩)]
          · rw [update_of_ne htu]
        · rw [update_of_ne hve]
      rw [hold]
      refine h.mL s hs v t ht ?_
      by_cases hsi : s = i
      · rw [if_pos (by omega), meterNum] at hle
        rw [if_neg (by omega), meterNum]
        have : ¬ (v = e ∧ t = u) := fun hvt ↦ hnew ⟨hvt.1, hvt.2, hsi⟩
        omega
      · by_cases hlt : s < i
        · rw [if_pos (by omega)] at hle
          rwa [if_pos hlt]
        · rw [if_neg (by omega)] at hle
          rwa [if_neg hlt]
  · have hflows : ((x.2.addMeter i kbps).2.now s).flows = (x.2.now s).flows :=
      Controller.request_same (·.flows) (·.putMeter _ _) (fun _ ↦ rfl) x.2 i s
    rw [hflows]
    exact h.flows s hs id

theorem initMeters_added {c : Controller} (hc : ∀ s < net.switches, c.now s = .empty) :
    net.MetersAdded (2 * net.nou) 0 (net.initMeters c) := by
  have hstart : net.MetersAdded (2 * 0) 0 ((fun _ _ _ ↦ 0, c) : (ℕ → ℕ → ℕ → ℕ) × Controller) := by
    refine ⟨fun s hs m hm ↦ ?_, fun s _ u t _ hle ↦ ?_, fun s hs id ↦ ?_⟩
    · rw [hc s hs, if_neg (Nat.not_lt_zero s)]
      exact iff_of_true rfl hm
    · rw [if_neg (Nat.not_lt_zero s), meterNum] at hle
      omega
    · rw [hc s hs]
      rfl
  refine Fold.range_induction (P := fun e x ↦ net.MetersAdded (2 * e) 0 x) hstart (fun e _ x hx ↦ ?_)
  refine Fold.range_induction (P := fun u x ↦ net.MetersAdded (2 * e + u) 0 x) hx (fun u hu x hx ↦ ?_)
  refine (Fold.range_induction (P := fun i x ↦ net.MetersAdded (2 * e + u) i x) hx
    (fun i hi x hx ↦ ?_)).next
  exact hx.addMeter hi hu _

/-- The state after the set-up: every user has the flows of topology 0. -/
theorem initNetwork_known {before : Datastore} {st : State} (h : net.initNetwork before = some st) :
    net.Known st ∧ ∀ u < net.users.length, ∀ s < net.switches, net.Settled st u s := by
  rw [initNetwork] at h
  split at h
  · cases h
  dsimp only at h
  have hclear := clear_now net before
  have hadded := initMeters_added hclear
  generalize net.initMeters ((List.range net.switches).foldl Controller.clear (Traced.start before))
    = x at h hadded
  obtain ⟨mL, c⟩ := x
  have hmL : net.MetersKnown mL := by
    intro u hu t ht s hs
    refine hadded.mL s hs u t ht ?_
    rw [if_neg (Nat.not_lt_zero s), meterNum]
    omega
  have hArp : ∀ s < net.switches, ArpOnly net
      ((net.sugList.foldl (net.addArp (mL net.users.length 1)) c).now s) := by
    intro s hs
    refine List.foldlRecOn net.sugList (net.addArp (mL net.users.length 1))
      (motive := fun c : Controller ↦ ArpOnly net (c.now s)) (fun id f hf ↦ ?_)
      (fun c hc g hg ↦ addArp_arpOnly ?_ hc)
    · cases (hadded.flows s hs id).symm.trans hf
    · rw [hmL _ (by rw [nou]; omega) 1 (by omega) _ (first_switch_lt hg), meterNum, nou]
      omega
  have hgroups := (addArps_groups net (mL net.users.length 1)
    (suggest_pairwise [] (fun _ ↦ 1) net.arpList) c).1
  rw [← sugList] at hgroups
  have htopology : net.createTopology net.b1U net.b2U mL (fun _ ↦ 0) c =
      (net.users.zipIdx.foldl (net.addUser mL (update (fun _ ↦ 0) net.users.length (-1)))
        (net.sugList.foldl (net.addArp (mL net.users.length 1)) c),
        update (fun _ ↦ 0) net.users.length (-1)) := createTopology_eq rfl c
  generalize net.sugList.foldl (net.addArp (mL net.users.length 1)) c = d at hArp hgroups htopology
  have hst : st = ⟨(net.users.zipIdx.foldl
      (net.addUser mL (update (fun _ ↦ 0) net.users.length (-1))) d).now,
      update (fun _ ↦ 0) net.users.length (-1), mL⟩ := by
    rw [htopology] at h
    exact (Option.some.inj h).symm
  have hzero : ∀ u < net.users.length, update (fun _ ↦ (0 : ℤ)) net.users.length (-1) u = 0 :=
    fun u hu ↦ update_of_ne (Nat.ne_of_lt hu) _ _
  have hlt : ∀ x ∈ net.users.zipIdx, x.2 < net.users.length := by
    intro x hx
    simpa using List.snd_lt_of_mem_zipIdx hx
  have hxs : Entries net mL (update (fun _ ↦ 0) net.users.length (-1)) net.users.zipIdx := by
    refine ⟨fun x hx _ ↦ List.mem_zipIdx_iff_getElem?.mp hx, fun x hx _ ↦ ?_, fun x hx _ ↦ ?_, ?_⟩
    · rw [hzero _ (hlt x hx)]
      decide
    · rw [hzero _ (hlt x hx)]
      exact hmL x.2 (lt_nou (hlt x hx)) 0 (by omega)
    · rw [List.zipIdx_map_snd]
      exact List.nodup_range'
  have hwithin := addUsers_within hxs d
  have hspec := fun s (hs : s < net.switches) ↦ addUsers_spec hxs (hArp s hs).tidy
    (fun x hx hname ↦ (hArp s hs).bare (hlt x hx) (hxs.topology x hx hname))
  subst hst
  have harp : update (fun _ ↦ (0 : ℤ)) net.users.length (-1) net.users.length = -1 := update_self _ _ _
  refine ⟨⟨hmL, fun u hu ↦ .inl (hzero u hu), harp, ?_, fun s hs ↦ (hspec s hs).1⟩, ?_⟩
  · intro g hg hpos
    rw [← hgroups g hg hpos]
    exact congrFun (hwithin.now.groups _).symm _
  · intro u hu s hs a ha
    refine ⟨(hspec s hs).2 (a, u) (List.mem_zipIdx_iff_getElem?.mpr ha) (user_ne_noUser ha), ?_⟩
    dsimp only
    rw [hzero u hu]
    refine (hwithin.now.bare ?_).mpr ((hArp s hs).bare hu (by decide))
    rintro ⟨-, x, hx, -, hm⟩
    rw [hzero _ (hlt x hx)] at hm
    have := (meterNum_inj (by decide) (by decide) hm).2
    revert this
    decide

theorem exists_initNetwork (h : net.maxNumMeters ≠ 0) (before : Datastore) :
    ∃ st, net.initNetwork before = some st := by
  rw [initNetwork, if_neg (fun hroom ↦ h hroom.2)]
  exact ⟨_, rfl⟩

theorem Reachable.known {β : Type*} {rate : β → ℤ} {st : State} (h : net.Reachable rate st) :
    net.Known st := by
  induction h with
  | init h => exact (initNetwork_known h).1
  | request req _ ih => exact ih.multipleSwitchTest rate req

/-- When no run ends early, every user has the flows of his selected topology at any time
between two runs. -/
theorem Reachable.settled {β : Type*} {rate : β → ℤ} {st : State} (h : net.Reachable rate st)
    (hrun : net.switches = 0 ∨ 0 < net.flowRows) {u : ℕ} (hu : u < net.users.length) {s : ℕ}
    (hs : s < net.switches) : net.Settled st u s := by
  induction h with
  | init h => exact (initNetwork_known h).2 u hu s hs
  | request req h ih =>
    have hmoved := multipleSwitchTest_moved h.known hrun rate req
    by_cases hmem : u ∈ (net.found req).map Prod.fst
    · exact hmoved.settled u hmem s hs
    · exact hmoved.settled_of_not_mem hmem hu ih

end Network

end EdgeSlice.Sdn

namespace EdgeSlice.Sdn

/-- Packets that take the action leave through the port. -/
def Delivers (g : SwitchConfig) (port : ℕ) : Action → Prop
  | .output p => p = port
  | .group id => ∃ ports, g.groups id = some ports ∧ port ∈ ports

/-- The flow takes the packets of an address along the route, through the meter. -/
structure Serves (g : SwitchConfig) (a : Address) (m : ℕ) (r : Route) (f : Flow) : Prop where
  type : f.type = .ipv4 r.direction a
  inPort : f.inPort = r.inPort
  meter : f.meter = m
  action : Delivers g r.outPort f.action

/-- The IPv4 flows of the address are one for each of the routes, all on the meter. -/
def ServesExactly (g : SwitchConfig) (a : Address) (m : ℕ) (routes : List Route) : Prop :=
  ∃ ids : List ℕ, ids.Nodup ∧
    List.Forall₂ (fun r id ↦ ∃ f, g.flows.get id = some f ∧ Serves g a m r f) routes ids ∧
    ∀ id f d, g.flows.get id = some f → f.type = .ipv4 d a → id ∈ ids

theorem ServesExactly.exists_flow {g : SwitchConfig} {a : Address} {m : ℕ} {routes : List Route}
    (h : ServesExactly g a m routes) {r : Route} (hr : r ∈ routes) :
    ∃ id f, g.flows.get id = some f ∧ Serves g a m r f := by
  obtain ⟨ids, -, hids, -⟩ := h
  obtain ⟨i, hi, rfl⟩ := List.getElem_of_mem hr
  obtain ⟨f, hf, hserves⟩ := hids.get hi (hids.length_eq ▸ hi)
  exact ⟨_, f, hf, hserves⟩

namespace Network

variable {net : Network} {st : State}

theorem users_inj {u v : ℕ} {a : Address} (hu : net.users[u]? = some a)
    (hv : net.users[v]? = some a) : u = v := by
  have hlt := (List.getElem?_eq_some_iff.mp hu).1
  exact (List.getElem?_inj hlt net.nodup).mp (hu.trans hv.symm)

theorem delivers_action {cfg : SwitchConfig} {g : Suggestion} {r : Route} (hg : g ∈ net.sugList)
    (hr : r ∈ g.members) (hgroup : 0 < g.group → cfg.groups g.group = some g.outputs) :
    Delivers cfg r.outPort g.action := by
  obtain ⟨-, -, hout, hsingle⟩ := sugList_members hg hr
  rw [Suggestion.action]
  by_cases hpos : 0 < g.group
  · rw [if_pos hpos]
    exact ⟨g.outputs, hgroup hpos, hout⟩
  · rw [if_neg hpos]
    exact (hsingle (by omega)).symm

theorem serves_grouped {g : SwitchConfig} {paths : List ℕ} {m : ℕ} {a : Address}
    {x : Suggestion × Route} (hx : x ∈ net.grouped paths)
    (hgroup : 0 < x.1.group → g.groups x.1.group = some x.1.outputs) :
    Serves g a m x.2 ⟨.ipv4 x.2.direction a, x.1.first.inPort, m, x.1.action, 89⟩ := by
  obtain ⟨hg, hr⟩ := mem_grouped hx
  exact ⟨rfl, (sugList_members hg hr).2.1.symm, rfl, delivers_action hg hr hgroup⟩

/-- A user who is settled on a switch has exactly the flows of his routes there. -/
theorem Settled.servesExactly (hst : net.Known st) {u s : ℕ} (hsettled : net.Settled st u s)
    (hs : s < net.switches) {a : Address} (ha : net.users[u]? = some a) :
    ServesExactly (st.datastore s) a (meterNum u (st.topNum u).toNat)
      (net.routes (net.pathsOf u) s) := by
  obtain ⟨hfilled, hbare⟩ := hsettled a ha
  have hflows : net.flowsOn u (st.topNum u).toNat a s =
      ((net.grouped (net.pathsOf u)).filter (·.1.first.switch = s)).map fun x ↦
        ⟨.ipv4 x.2.direction a, x.1.first.inPort, meterNum u (st.topNum u).toNat, x.1.action, 89⟩ := by
    rw [flowsOn, ipv4Flows, List.filter_map, List.map_map]
    rfl
  have hall := hfilled.forall₂
  rw [hflows, List.forall₂_map_left_iff] at hall
  have hgrouped : ∀ x ∈ (net.grouped (net.pathsOf u)).filter (·.1.first.switch = s),
      Serves (st.datastore s) a (meterNum u (st.topNum u).toNat) x.2
        ⟨.ipv4 x.2.direction a, x.1.first.inPort, meterNum u (st.topNum u).toNat, x.1.action, 89⟩ := by
    intro x hx
    obtain ⟨hmem, hswitch⟩ := List.mem_filter.mp hx
    refine serves_grouped hmem (fun hpos ↦ ?_)
    rw [← of_decide_eq_true hswitch]
    exact hst.groups x.1 (mem_grouped hmem).1 hpos
  have hserves := ((List.forall₂_and_left _ _).mpr ⟨hgrouped, hall⟩).imp
    (S := fun x id ↦ ∃ f, (st.datastore s).flows.get id = some f ∧
      Serves (st.datastore s) a (meterNum u (st.topNum u).toNat) x.2 f)
    (fun x id h ↦ ⟨_, h.2, h.1⟩)
  rw [← List.forall₂_map_left_iff (f := Prod.snd) (R := fun r id ↦ ∃ f,
    (st.datastore s).flows.get id = some f ∧
      Serves (st.datastore s) a (meterNum u (st.topNum u).toNat) r f)] at hserves
  obtain ⟨ids, hids, hperm⟩ :=
    List.perm_comp_forall₂ (grouped_switch_perm (net.pathsOf u) s).symm hserves
  refine ⟨ids, hperm.nodup_iff.mpr List.nodup_range', hids, fun id f d hf htype ↦ ?_⟩
  refine hperm.mem_iff.mpr ?_
  rw [← hflows]
  refine hfilled.mem_range' hf ?_
  rcases (hst.tidy s hs).owned id f hf with ⟨v, t, d', a', ha', ht, hm, htype'⟩ | ⟨-, harp⟩
  · rw [htype] at htype'
    cases htype'
    obtain rfl := users_inj ha ha'
    rcases topology_cases (hst.topology u (List.getElem?_eq_some_iff.mp ha).1) ht with rfl | rfl
    · exact hm
    · exact absurd hm (hbare id f hf)
  · rw [htype] at harp
    cases harp

/-- In a topology the user has a flow for every route, on every switch. -/
def Complete (net : Network) (mL : ℕ → ℕ → ℕ → ℕ) (d : Datastore) (u t : ℕ) : Prop :=
  ∀ a, net.users[u]? = some a → ∀ s < net.switches, ∀ r ∈ net.routes (net.pathsOf u) s,
    ∃ id f, (d s).flows.get id = some f ∧ Serves (d s) a (mL u t s) r f

theorem complete_of_settled (hst : net.Known st) {u : ℕ}
    (hsettled : ∀ s < net.switches, net.Settled st u s) :
    net.Complete st.mL st.datastore u (st.topNum u).toNat := by
  intro a ha s hs r hr
  have hlt := (List.getElem?_eq_some_iff.mp ha).1
  rw [hst.meters u (lt_nou hlt) _ (toNat_lt_two (hst.topology u hlt)) s hs]
  exact ((hsettled s hs).servesExactly hst hs ha).exists_flow hr

end Network

end EdgeSlice.Sdn
