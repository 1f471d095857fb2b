import EdgeSlice.Sdn.Topology

namespace EdgeSlice.Sdn

/-- The number of the meter that `init_network_v4` adds for a user and a topology. -/
def meterNum (u t : ℕ) : ℕ := 2 * u + t + 1

theorem meterNum_inj {u v t t' : ℕ} (ht : t < 2) (ht' : t' < 2) (h : meterNum u t = meterNum v t') :
    u = v ∧ t = t' := by
  rw [meterNum, meterNum] at h
  omega

/-- No flow is bound to the meter. -/
def Bare (g : SwitchConfig) (m : ℕ) : Prop := ∀ id f, g.flows.get id = some f → f.meter ≠ m

theorem Bare.of_kept {g g' : SwitchConfig} {m : ℕ} (h : Bare g m)
    (hkept : ∀ id f, g'.flows.get id = some f → g.flows.get id = some f) : Bare g' m :=
  fun id f hf ↦ h id f (hkept id f hf)

/-- The flows of the meter are those of a list, at the first numbers of the window. -/
def Filled (maxFlows : ℕ) (g : SwitchConfig) (m : ℕ) (fs : List Flow) : Prop :=
  ∀ id f, (g.flows.get id = some f ∧ f.meter = m) ↔
    1 + maxFlows * (m - 1) ≤ id ∧ fs[id - (1 + maxFlows * (m - 1))]? = some f

theorem Filled.forall₂ {maxFlows m : ℕ} {g : SwitchConfig} {fs : List Flow}
    (h : Filled maxFlows g m fs) :
    List.Forall₂ (fun f id ↦ g.flows.get id = some f) fs
      (List.range' (1 + maxFlows * (m - 1)) fs.length) := by
  refine List.forall₂_of_length_eq_of_get List.length_range'.symm (fun i hi hi' ↦ ?_)
  rw [List.get_eq_getElem, List.get_eq_getElem, List.getElem_range', Nat.one_mul]
  refine ((h _ _).mpr ⟨Nat.le_add_right _ _, ?_⟩).1
  rw [Nat.add_sub_cancel_left, List.getElem?_eq_getElem hi]

theorem Filled.mem_range' {maxFlows m : ℕ} {g : SwitchConfig} {fs : List Flow}
    (h : Filled maxFlows g m fs) {id : ℕ} {f : Flow} (hf : g.flows.get id = some f)
    (hm : f.meter = m) : id ∈ List.range' (1 + maxFlows * (m - 1)) fs.length := by
  obtain ⟨hle, hget⟩ := (h id f).mp ⟨hf, hm⟩
  have hlt := (List.getElem?_eq_some_iff.mp hget).1
  rw [List.mem_range'_1]
  omega

theorem SameOutside.bare {T : ℕ → ℕ → Prop} {d e : Datastore} (h : SameOutside T d e) {s m : ℕ}
    (hm : ¬ T s m) : Bare (e s) m ↔ Bare (d s) m := by
  constructor
  · intro hb id f hf hfm
    rw [← hfm] at hm
    exact hb id f ((h.flows s id f hm).mp hf) hfm
  · intro hb id f hf hfm
    rw [← hfm] at hm
    exact hb id f ((h.flows s id f hm).mpr hf) hfm

theorem SameOutside.filled {T : ℕ → ℕ → Prop} {d e : Datastore} (h : SameOutside T d e) {s m : ℕ}
    (hm : ¬ T s m) {maxFlows : ℕ} {fs : List Flow} (hd : Filled maxFlows (d s) m fs) :
    Filled maxFlows (e s) m fs := by
  intro id f
  rw [← hd id f]
  refine and_congr_left (fun hfm ↦ ?_)
  rw [← hfm] at hm
  exact (h.flows s id f hm).symm

namespace Network

variable (net : Network)

/-- The paths of a user: those of his base station. -/
def pathsOf (u : ℕ) : List ℕ := if u < net.b1U.length then b1Paths else b2Paths

/-- A flow of a user on a meter of his, or an ARP flow on the last meter. -/
def Owned (f : Flow) : Prop :=
  (∃ u t d a, net.users[u]? = some a ∧ t < 2 ∧ f.meter = meterNum u t ∧ f.type = .ipv4 d a) ∨
    (f.meter = 2 * net.nou ∧ f.type = .arp)

structure Tidy (g : SwitchConfig) : Prop where
  placed : Placed net.maxNumOfFlowsPerUser (2 * net.nou) g
  owned : ∀ id f, g.flows.get id = some f → net.Owned f

/-- The IPv4 flows of a user on one switch. -/
def flowsOn (u t : ℕ) (a : Address) (s : ℕ) : List Flow :=
  ((net.ipv4Flows (net.pathsOf u) a (fun _ ↦ meterNum u t)).filter (·.1 = s)).map Prod.snd

/-- The groups that the flows of the topology refer to are there. -/
def GroupsReady (d : Datastore) : Prop :=
  ∀ g ∈ net.sugList, 0 < g.group → (d g.first.switch).groups g.group = some g.outputs

variable {net}

theorem meterNum_lt {u t : ℕ} (hu : u < net.users.length) (ht : t < 2) :
    meterNum u t < 2 * net.nou := by
  rw [meterNum, nou]
  omega

theorem Tidy.of_kept {g g' : SwitchConfig} (h : net.Tidy g)
    (hkept : ∀ id f, g'.flows.get id = some f → g.flows.get id = some f) : net.Tidy g' :=
  ⟨h.placed.of_kept hkept, fun id f hf ↦ h.owned id f (hkept id f hf)⟩

theorem ipv4Flows_congr {paths : List ℕ} {a : Address} {m m' : ℕ → ℕ}
    (h : ∀ s < net.switches, m s = m' s) : net.ipv4Flows paths a m = net.ipv4Flows paths a m' := by
  refine List.map_congr_left (fun x hx ↦ ?_)
  dsimp only
  rw [h _ (first_switch_lt (mem_grouped hx).1)]

theorem mem_ipv4Flows {paths : List ℕ} {a : Address} {m : ℕ} {e : ℕ × Flow}
    (he : e ∈ net.ipv4Flows paths a (fun _ ↦ m)) :
    e.1 < net.switches ∧ e.2.meter = m ∧ ∃ d, e.2.type = .ipv4 d a := by
  obtain ⟨⟨g, r⟩, hx, rfl⟩ := List.mem_map.mp he
  exact ⟨first_switch_lt (mem_grouped hx).1, rfl, r.direction, rfl⟩

theorem mem_flowsOn {u t : ℕ} {a : Address} {s : ℕ} {f : Flow} (hf : f ∈ net.flowsOn u t a s) :
    f.meter = meterNum u t ∧ ∃ d, f.type = .ipv4 d a := by
  obtain ⟨e, he, rfl⟩ := List.mem_map.mp hf
  exact (mem_ipv4Flows (List.mem_of_mem_filter he)).2

/-- The flows of a user on one switch fit into the window of a meter. -/
theorem ipv4Flows_length_le (u : ℕ) (a : Address) (m : ℕ → ℕ) :
    (net.ipv4Flows (net.pathsOf u) a m).length ≤ net.maxNumOfFlowsPerUser := by
  rw [ipv4Flows, List.length_map, ← List.length_map Prod.snd, (grouped_perm _).length_eq, pathsOf]
  split
  · exact firstPath_length_le
  · simp [b2Paths]

/-- What `create_topology` does for one user whose new meter has no flows. -/
theorem addUser_spec {u t : ℕ} {a : Address} (ha : net.users[u]? = some a) (ht : t < 2)
    {c : Controller} {s : ℕ} (hc : net.Tidy (c.now s)) (hbare : Bare (c.now s) (meterNum u t)) :
    net.Tidy ((c.addFlows net.maxNumOfFlowsPerUser
        (net.ipv4Flows (net.pathsOf u) a (fun _ ↦ meterNum u t))).now s) ∧
      Filled net.maxNumOfFlowsPerUser ((c.addFlows net.maxNumOfFlowsPerUser
        (net.ipv4Flows (net.pathsOf u) a (fun _ ↦ meterNum u t))).now s) (meterNum u t)
        (net.flowsOn u t a s) := by
  have hu : u < net.users.length := (List.getElem?_eq_some_iff.mp ha).1
  have hlast := meterNum_lt hu ht
  have hlen : (net.flowsOn u t a s).length ≤ net.maxNumOfFlowsPerUser := by
    rw [flowsOn, List.length_map]
    exact (List.length_filter_le _ _).trans (ipv4Flows_length_le u a _)
  have hmeter : ∀ e ∈ net.ipv4Flows (net.pathsOf u) a (fun _ ↦ meterNum u t),
      e.2.meter = meterNum u t := fun e he ↦ (mem_ipv4Flows he).2.1
  have hget := Controller.addFlows_flows (s := s) (c := c) hmeter hc.placed
    (by rw [meterNum]; omega) hlast hbare (by rwa [flowsOn, List.length_map] at hlen)
  rw [← List.length_map Prod.snd, ← flowsOn] at hget
  have hwidth : 1 + net.maxNumOfFlowsPerUser * meterNum u t =
      1 + net.maxNumOfFlowsPerUser * (meterNum u t - 1) + net.maxNumOfFlowsPerUser := by
    rw [Nat.add_assoc, ← Nat.mul_succ, Nat.succ_eq_add_one, Nat.sub_add_cancel (by rw [meterNum]; omega)]
  refine ⟨⟨?_, ?_⟩, ?_⟩
  · intro id f hf
    rw [hget] at hf
    split at hf
    · obtain ⟨hm, -⟩ := mem_flowsOn (List.mem_of_getElem? hf)
      rw [hm]
      exact ⟨by rw [meterNum]; omega, by omega, by omega, by omega⟩
    · exact hc.placed id f hf
  · intro id f hf
    rw [hget] at hf
    split at hf
    · obtain ⟨hm, d, htype⟩ := mem_flowsOn (List.mem_of_getElem? hf)
      exact .inl ⟨u, t, d, a, ha, ht, hm, htype⟩
    · exact hc.owned id f hf
  · intro id f
    rw [hget]
    by_cases hin : 1 + net.maxNumOfFlowsPerUser * (meterNum u t - 1) ≤ id ∧
        id < 1 + net.maxNumOfFlowsPerUser * (meterNum u t - 1) + (net.flowsOn u t a s).length
    · rw [if_pos hin]
      exact ⟨fun h ↦ ⟨hin.1, h.1⟩, fun h ↦ ⟨h.2, (mem_flowsOn (List.mem_of_getElem? h.2)).1⟩⟩
    · rw [if_neg hin]
      refine ⟨fun h ↦ absurd h.2 (hbare id f h.1), fun h ↦ ?_⟩
      have hlt := (List.getElem?_eq_some_iff.mp h.2).1
      exact absurd ⟨h.1, by omega⟩ hin

theorem addUser_within (net : Network) (u t : ℕ) (a : Address) (c : Controller) :
    c.Within (SameOutside fun s m ↦ s < net.switches ∧ m = meterNum u t)
      (c.addFlows net.maxNumOfFlowsPerUser
        (net.ipv4Flows (net.pathsOf u) a (fun _ ↦ meterNum u t))) := by
  refine Controller.addFlows_within _ (fun e he ↦ ?_) c
  obtain ⟨hs, hm, -⟩ := mem_ipv4Flows he
  exact ⟨hs, hm⟩

end Network

end EdgeSlice.Sdn
