import EdgeSlice.Sdn.Connectivity

namespace EdgeSlice.Sdn

open Function

/-- The address of the user in a packet of the direction. -/
def Direction.address : Direction → Address → Address → Address
  | .source, a, _ => a
  | .destination, _, b => b

/-- An IPv4 packet that comes in at the port can take the flow. -/
def Flow.Matches (f : Flow) (inPort : ℕ) (source destination : Address) : Prop :=
  f.inPort = inPort ∧ ∃ d : Direction, f.type = .ipv4 d (d.address source destination)

/-- The match of a flow. -/
def Flow.key (f : Flow) : FlowType × ℕ := (f.type, f.inPort)

def FlowType.user : FlowType → Option Address
  | .arp => none
  | .ipv4 _ a => some a

/-- A packet has a flow, and leaves by the output port whichever of its flows it takes: the
IPv4 flows all have one priority. -/
structure Forwards (g : SwitchConfig) (inPort outPort : ℕ) (source destination : Address) : Prop where
  matched : ∃ id f, g.flows.get id = some f ∧ f.Matches inPort source destination
  delivers : ∀ id f, g.flows.get id = some f → f.Matches inPort source destination →
    Delivers g outPort f.action

/-- What the flows and groups of a configuration are for. -/
structure Compiles (net : Network) (d : Datastore) : Prop where
  forwards : ∀ u a, net.users[u]? = some a → ∀ s < net.switches, ∀ r ∈ net.routes (net.pathsOf u) s,
    ∀ source destination, r.direction.address source destination = a →
      Forwards (d s) r.inPort r.outPort source destination
  covered : ∀ r ∈ net.arpList, ∃ id f, (d r.switch).flows.get id = some f ∧ f.type = .arp ∧
    f.inPort = r.inPort ∧ Delivers (d r.switch) r.outPort f.action
  groups : ∀ s < net.switches, ∀ k ports, (d s).groups k = some ports → ports.Nodup
  flows : ∀ s < net.switches, ∀ id id' f f', (d s).flows.get id = some f →
    (d s).flows.get id' = some f' → f.key = f'.key → id = id'
  bound : ∀ a ∈ net.users, ∀ s < net.switches, ∀ ids : List ℕ, ids.Nodup →
    (∀ id ∈ ids, ∃ f, (d s).flows.get id = some f ∧ f.type.user = some a) →
      ids.length ≤ net.maxNumOfFlowsPerUser

/-- No number but the first is there again. -/
def RepeatsOnlyFirst : List ℕ → Prop
  | [] => True
  | o :: os => (os.filter (· ≠ o)).Nodup

instance : DecidablePred RepeatsOnlyFirst
  | [] => .isTrue trivial
  | o :: os => inferInstanceAs (Decidable (os.filter (· ≠ o)).Nodup)

def Route.input (r : Route) : ℕ × ℕ := (r.switch, r.inPort)

namespace Network

/-- The output ports of an input port repeat the first of them only. -/
def OutputsDistinct (net : Network) : Prop :=
  ∀ r ∈ net.arpList, RepeatsOnlyFirst ((net.arpList.filter (·.input = r.input)).map (·.outPort))

/-- No two routes of the first path have one input port and direction on a switch. -/
def InputsDistinct (net : Network) : Prop :=
  ((net.arpList.filter (·.path ∈ b1Paths)).map fun r ↦ (r.switch, r.direction, r.inPort)).Nodup

instance (net : Network) : Decidable net.OutputsDistinct :=
  inferInstanceAs (Decidable (∀ r ∈ net.arpList, RepeatsOnlyFirst _))

instance (net : Network) : Decidable net.InputsDistinct := inferInstanceAs (Decidable (List.Nodup _))

end Network

section Suggestions

variable {seen : List (ℕ × ℕ)} {counter : ℕ → ℕ} {routes : List Route} {g : Suggestion}

theorem otherOutputs_eq (r : Route) (rest : List Route) :
    otherOutputs r rest = ((sameInput r rest).map (·.outPort)).filter (· ≠ r.outPort) := by
  rw [otherOutputs, List.filter_map]
  rfl

/-- A suggestion covers all routes with its switch and input port. -/
theorem suggest_eq (hg : g ∈ suggest seen counter routes) :
    g.first.input ∉ seen ∧ g.members = routes.filter (·.input = g.first.input) ∧
      g.outputs = g.first.outPort :: (g.merged.map (·.outPort)).filter (· ≠ g.first.outPort) := by
  induction routes generalizing seen counter with
  | nil => cases hg
  | cons r rest ih =>
    have hself : r :: sameInput r rest = (r :: rest).filter (·.input = r.input) := by
      rw [List.filter_cons_of_pos (by simp)]
      rfl
    have hlater : ∀ {counter' : ℕ → ℕ}, g ∈ suggest (r.input :: seen) counter' rest →
        g.first.input ∉ seen ∧ g.members = (r :: rest).filter (·.input = g.first.input) ∧
          g.outputs = g.first.outPort :: (g.merged.map (·.outPort)).filter (· ≠ g.first.outPort) := by
      intro counter' hg
      obtain ⟨hseen, hmembers, houtputs⟩ := ih hg
      obtain ⟨hne, hseen⟩ := not_or.mp (mt List.mem_cons.mpr hseen)
      rw [List.filter_cons_of_neg (by simpa using Ne.symm hne)]
      exact ⟨hseen, hmembers, houtputs⟩
    rw [suggest] at hg
    by_cases hseen : (r.switch, r.inPort) ∈ seen
    · rw [if_pos hseen] at hg
      obtain ⟨hseen', hmembers, houtputs⟩ := ih hg
      have hne : r.input ≠ g.first.input := fun heq ↦ hseen' (heq ▸ hseen)
      rw [List.filter_cons_of_neg (by simpa using hne)]
      exact ⟨hseen', hmembers, houtputs⟩
    · rw [if_neg hseen] at hg
      by_cases hothers : otherOutputs r rest = []
      · rw [if_pos hothers] at hg
        rcases List.mem_cons.mp hg with rfl | hg
        · refine ⟨hseen, hself, ?_⟩
          rw [← otherOutputs_eq, hothers]
        · exact hlater hg
      · rw [if_neg hothers] at hg
        rcases List.mem_cons.mp hg with rfl | hg
        · refine ⟨hseen, hself, ?_⟩
          rw [← otherOutputs_eq]
        · exact hlater hg

theorem suggest_inputs_nodup (seen : List (ℕ × ℕ)) (counter : ℕ → ℕ) (routes : List Route) :
    ((suggest seen counter routes).map fun g ↦ g.first.input).Nodup := by
  induction routes generalizing seen counter with
  | nil => exact List.nodup_nil
  | cons r rest ih =>
    have hnew : ∀ counter', r.input ∉
        (suggest (r.input :: seen) counter' rest).map fun g ↦ g.first.input := by
      intro counter' hmem
      obtain ⟨g, hg, hinput⟩ := List.mem_map.mp hmem
      exact (suggest_eq hg).1 (hinput ▸ List.mem_cons_self)
    rw [suggest]
    by_cases hseen : (r.switch, r.inPort) ∈ seen
    · rw [if_pos hseen]
      exact ih _ _
    · rw [if_neg hseen]
      by_cases hothers : otherOutputs r rest = []
      · rw [if_pos hothers]
        exact List.nodup_cons.mpr ⟨hnew _, ih _ _⟩
      · rw [if_neg hothers]
        exact List.nodup_cons.mpr ⟨hnew _, ih _ _⟩

end Suggestions

namespace Network

variable {net : Network} {g : Suggestion}

theorem members_eq (hg : g ∈ net.sugList) :
    g.members = net.arpList.filter (·.input = g.first.input) :=
  (suggest_eq hg).2.1

theorem exists_suggestion {r : Route} (hr : r ∈ net.arpList) : ∃ g ∈ net.sugList, r ∈ g.members :=
  List.mem_flatMap.mp (sugList_perm.mem_iff.mpr hr)

theorem input_of_mem_members (hg : g ∈ net.sugList) {r : Route} (hr : r ∈ g.members) :
    r.input = g.first.input := by
  rw [members_eq hg] at hr
  exact of_decide_eq_true (List.mem_filter.mp hr).2

theorem outputs_nodup_iff (hg : g ∈ net.sugList) :
    g.outputs.Nodup ↔
      RepeatsOnlyFirst ((net.arpList.filter (·.input = g.first.input)).map (·.outPort)) := by
  rw [(suggest_eq hg).2.2, ← members_eq hg, List.nodup_cons]
  refine and_iff_right fun hmem ↦ ?_
  simpa using (List.mem_filter.mp hmem).2

/-- A flow without a group has one output port. -/
theorem outputs_nodup_of_group (hg : g ∈ net.sugList) (hgroup : g.group = 0) : g.outputs.Nodup := by
  have hnone : (g.merged.map (·.outPort)).filter (· ≠ g.first.outPort) = [] := by
    rw [List.filter_eq_nil_iff]
    intro o ho
    obtain ⟨r, hr, rfl⟩ := List.mem_map.mp ho
    have hout := (sugList_members hg (List.mem_cons_of_mem _ hr)).2.2.2 hgroup
    simpa using hout
  rw [(suggest_eq hg).2.2, hnone]
  exact List.nodup_singleton _

theorem outputsDistinct_iff :
    net.OutputsDistinct ↔ ∀ g ∈ net.sugList, 0 < g.group → g.outputs.Nodup := by
  constructor
  · intro h g hg _
    have hfirst : g.first ∈ net.arpList := by
      have hmem : g.first ∈ g.members := List.mem_cons_self
      rw [members_eq hg] at hmem
      exact List.mem_of_mem_filter hmem
    exact (outputs_nodup_iff hg).mpr (h g.first hfirst)
  · intro h r hr
    obtain ⟨g, hg, hmem⟩ := exists_suggestion hr
    have hnodup : g.outputs.Nodup := by
      by_cases hgroup : 0 < g.group
      · exact h g hg hgroup
      · exact outputs_nodup_of_group hg (by omega)
    rw [input_of_mem_members hg hmem]
    exact (outputs_nodup_iff hg).mp hnodup

end Network

section Lists

variable {α β κ : Type*}

theorem nodup_map_prod_iff {l : List α} {f : α → ℕ} {n : ℕ} (hf : ∀ x ∈ l, f x < n) (g : α → κ) :
    (l.map fun x ↦ (f x, g x)).Nodup ↔ ∀ s < n, ((l.filter (f · = s)).map g).Nodup := by
  simp only [List.Nodup, List.pairwise_map, List.pairwise_filter, decide_eq_true_eq]
  constructor
  · intro h s _
    exact h.imp fun hne hx hy hg ↦ hne (Prod.ext (hx.trans hy.symm) hg)
  · intro h
    refine List.pairwise_iff_getElem.mpr fun i j hi hj hij heq ↦ ?_
    obtain ⟨hfeq, hgeq⟩ := Prod.mk.inj heq
    have hs := List.pairwise_iff_getElem.mp (h (f l[i]) (hf _ (List.getElem_mem hi)))
    exact hs i j hi hj hij rfl hfeq.symm hgeq

/-- At most one part of the list is there. -/
theorem length_flatMap_le {f : α → List β} {n : ℕ} {l : List α}
    (hone : l.Pairwise fun x y ↦ f x = [] ∨ f y = []) (hf : ∀ x ∈ l, (f x).length ≤ n) :
    (l.flatMap f).length ≤ n := by
  induction l with
  | nil => exact Nat.zero_le n
  | cons x l ih =>
    obtain ⟨hx, htail⟩ := List.pairwise_cons.mp hone
    rw [List.flatMap_cons]
    by_cases hnil : f x = []
    · rw [hnil, List.nil_append]
      exact ih htail fun y hy ↦ hf y (List.mem_cons_of_mem _ hy)
    · have hrest : l.flatMap f = [] :=
        List.flatMap_eq_nil_iff.mpr fun y hy ↦ (hx y hy).resolve_left hnil
      rw [hrest, List.append_nil]
      exact hf x List.mem_cons_self

end Lists

theorem Controller.addFlows_listed {maxFlows s : ℕ} {c : Controller} {fs : List Flow}
    (h : (c.now s).flows.Listed fs) (es : List (ℕ × Flow)) :
    ((c.addFlows maxFlows es).now s).flows.Listed (fs ++ (es.filter (·.1 = s)).map Prod.snd) := by
  have hstep : ∀ f ∈ (es.filter (·.1 = s)).map Prod.snd, ∀ (g : SwitchConfig) fs, g.flows.Listed fs →
      (g.addFlow maxFlows f).flows.Listed (fs ++ [f]) := fun f _ _ _ hg ↦ hg.add _ f
  have hall := h.foldl SwitchConfig.flows hstep
  rwa [List.flatMap_singleton', ← addFlows_now] at hall

namespace Network

variable (net : Network) (meter : ℕ → ℕ) (meters : ℕ → ℕ → ℕ) (s : ℕ)

def arpFlow (g : Suggestion) : Flow :=
  ⟨.arp, g.first.inPort, meter g.first.switch, g.action, if 0 < g.group then 90 else 91⟩

/-- The ARP flows of one switch. -/
def arpFlows : List Flow := (net.sugList.filter (·.first.switch = s)).map (arpFlow meter)

/-- The IPv4 flows of a user on one switch, whatever meters he has. -/
def userFlows (x : Address × ℕ) : List Flow :=
  ((net.ipv4Flows (net.pathsOf x.2) x.1 (meters x.2)).filter (·.1 = s)).map Prod.snd

/-- The flows of one switch. -/
def switchFlows : List Flow :=
  net.arpFlows meter s ++ net.users.zipIdx.flatMap (net.userFlows meters s)

variable {net meter meters s} {c : Controller} {fs : List Flow} {f : Flow}

theorem addArp_listed (g : Suggestion) (h : (c.now s).flows.Listed fs) :
    ((net.addArp meter c g).now s).flows.Listed
      (fs ++ ([g].filter (·.first.switch = s)).map (arpFlow meter)) := by
  have hflow : ∀ c' : Controller, (c'.now s).flows = (c.now s).flows →
      ((c'.addFlowWithMeter net.maxNumOfFlowsPerUser g.first.switch (arpFlow meter g)).now s).flows.Listed
        (fs ++ ([g].filter (·.first.switch = s)).map (arpFlow meter)) := by
    intro c' hflows
    have hsame : ([g].filter (·.first.switch = s)).map (arpFlow meter) =
        ([(g.first.switch, arpFlow meter g)].filter (·.1 = s)).map Prod.snd := by
      by_cases hs : g.first.switch = s
      · simp [hs]
      · simp [hs]
    rw [hsame]
    rw [← hflows] at h
    exact Controller.addFlows_listed h [(g.first.switch, arpFlow meter g)]
  rw [addArp]
  apply hflow
  by_cases hpos : 0 < g.group
  · rw [if_pos hpos]
    exact Controller.request_same (·.flows) (·.putGroup g.group g.outputs) (fun _ ↦ rfl) c _ s
  · rw [if_neg hpos]

theorem addArps_listed (h : (c.now s).flows.Listed fs) :
    ((net.sugList.foldl (net.addArp meter) c).now s).flows.Listed (fs ++ net.arpFlows meter s) := by
  have hstep : ∀ g ∈ net.sugList, ∀ (c : Controller) fs, (c.now s).flows.Listed fs →
      ((net.addArp meter c g).now s).flows.Listed
        (fs ++ ([g].filter (·.first.switch = s)).map (arpFlow meter)) := fun g _ _ _ ↦ addArp_listed g
  have hall := h.foldl (fun c : Controller ↦ (c.now s).flows) hstep
  rwa [← List.map_flatMap, ← List.filter_flatMap, List.flatMap_singleton'] at hall

theorem mem_arpFlows : f ∈ net.arpFlows meter s ↔
    ∃ g ∈ net.sugList, g.first.switch = s ∧ f = arpFlow meter g := by
  simp [arpFlows, and_assoc, eq_comm]

theorem mem_userFlows {x : Address × ℕ} : f ∈ net.userFlows meters s x ↔
    ∃ y ∈ net.grouped (net.pathsOf x.2), y.1.first.switch = s ∧
      f = ⟨.ipv4 y.2.direction x.1, y.1.first.inPort, meters x.2 y.1.first.switch, y.1.action, 89⟩ := by
  simp [userFlows, ipv4Flows, and_assoc, eq_comm]

theorem arpFlows_keys_nodup : ((net.arpFlows meter s).map Flow.key).Nodup := by
  have hinputs : (net.sugList.map fun g ↦ (g.first.switch, g.first.inPort)).Nodup :=
    suggest_inputs_nodup [] (fun _ ↦ 1) net.arpList
  rw [nodup_map_prod_iff (n := max net.switches (s + 1))] at hinputs
  · have hs := hinputs s (by omega)
    have hkey : (net.arpFlows meter s).map Flow.key =
        ((net.sugList.filter (·.first.switch = s)).map (·.first.inPort)).map fun i ↦ (.arp, i) := by
      rw [arpFlows, List.map_map, List.map_map]
      rfl
    rw [hkey]
    exact hs.map fun i j hij ↦ (Prod.mk.inj hij).2
  · intro g hg
    have := first_switch_lt hg
    omega

/-- The matches of a user are one for each of his routes. -/
theorem userFlows_keys_perm (x : Address × ℕ) :
    ((net.userFlows meters s x).map Flow.key).Perm
      (((net.routes (net.pathsOf x.2) s).map fun r ↦ (r.direction, r.inPort)).map fun k ↦
        (.ipv4 k.1 x.1, k.2)) := by
  have hkeys : (net.userFlows meters s x).map Flow.key =
      ((((net.grouped (net.pathsOf x.2)).filter (·.1.first.switch = s)).map Prod.snd).map fun r ↦
        (r.direction, r.inPort)).map fun k ↦ (.ipv4 k.1 x.1, k.2) := by
    rw [userFlows, ipv4Flows, List.filter_map, List.map_map, List.map_map, List.map_map, List.map_map]
    refine List.map_congr_left fun y hy ↦ ?_
    obtain ⟨hg, hr⟩ := mem_grouped (List.mem_of_mem_filter hy)
    simp only [Function.comp_apply, Flow.key, (sugList_members hg hr).2.1]
  rw [hkeys]
  exact ((grouped_switch_perm _ s).map _).map _

theorem userFlows_keys_nodup_iff (x : Address × ℕ) :
    ((net.userFlows meters s x).map Flow.key).Nodup ↔
      ((net.routes (net.pathsOf x.2) s).map fun r ↦ (r.direction, r.inPort)).Nodup := by
  rw [(userFlows_keys_perm x).nodup_iff]
  apply List.nodup_map_iff
  intro k k' hk
  obtain ⟨htype, hport⟩ := Prod.mk.inj hk
  exact Prod.ext (FlowType.ipv4.inj htype).1 hport

/-- Only the flows of one user can have the same match. -/
theorem switchFlows_keys_nodup_iff :
    ((net.switchFlows meter meters s).map Flow.key).Nodup ↔ ∀ x ∈ net.users.zipIdx,
      ((net.routes (net.pathsOf x.2) s).map fun r ↦ (r.direction, r.inPort)).Nodup := by
  have hdisjoint : ((net.arpFlows meter s).map Flow.key).Disjoint
      ((net.users.zipIdx.flatMap (net.userFlows meters s)).map Flow.key) := by
    intro k hk hk'
    obtain ⟨f, hf, rfl⟩ := List.mem_map.mp hk
    obtain ⟨g, _, _, rfl⟩ := mem_arpFlows.mp hf
    obtain ⟨f', hf', hkey⟩ := List.mem_map.mp hk'
    obtain ⟨x, _, hf'⟩ := List.mem_flatMap.mp hf'
    obtain ⟨y, _, _, rfl⟩ := mem_userFlows.mp hf'
    cases (Prod.mk.inj hkey).1
  have haddresses : net.users.zipIdx.Pairwise fun x y ↦ x.1 ≠ y.1 := by
    rw [← List.pairwise_map, List.zipIdx_map_fst]
    exact net.nodup
  have hpairwise : net.users.zipIdx.Pairwise
      (List.Disjoint on fun x ↦ (net.userFlows meters s x).map Flow.key) := by
    refine haddresses.imp fun {x y} hne k hk hk' ↦ ?_
    obtain ⟨f, hf, rfl⟩ := List.mem_map.mp hk
    obtain ⟨f', hf', hkey⟩ := List.mem_map.mp hk'
    obtain ⟨_, _, _, rfl⟩ := mem_userFlows.mp hf
    obtain ⟨_, _, _, rfl⟩ := mem_userFlows.mp hf'
    exact hne (FlowType.ipv4.inj (Prod.mk.inj hkey).1).2.symm
  rw [switchFlows, List.map_append, List.nodup_append', List.map_flatMap, List.nodup_flatMap]
  rw [List.map_flatMap] at hdisjoint
  constructor
  · intro h x hx
    exact (userFlows_keys_nodup_iff x).mp (h.2.1.1 x hx)
  · intro h
    exact ⟨arpFlows_keys_nodup, ⟨fun x hx ↦ (userFlows_keys_nodup_iff x).mpr (h x hx), hpairwise⟩,
      hdisjoint⟩

theorem routes_nodup_iff (paths : List ℕ) :
    (∀ s < net.switches, ((net.routes paths s).map fun r ↦ (r.direction, r.inPort)).Nodup) ↔
      ((net.arpList.filter (·.path ∈ paths)).map fun r ↦ (r.switch, r.direction, r.inPort)).Nodup := by
  have hroutes : ∀ s, net.routes paths s = (net.arpList.filter (·.path ∈ paths)).filter (·.switch = s) := by
    intro s
    rw [routes, List.filter_filter]
    refine List.filter_congr fun r _ ↦ ?_
    rw [Bool.decide_and, Bool.and_comm]
  rw [nodup_map_prod_iff fun r hr ↦ mem_arpList (List.mem_of_mem_filter hr)]
  simp only [hroutes]

variable (meter meters) in
theorem keys_nodup_iff :
    (∀ s < net.switches, ((net.switchFlows meter meters s).map Flow.key).Nodup) ↔
      net.b1U = [] ∨ net.InputsDistinct := by
  simp only [switchFlows_keys_nodup_iff, InputsDistinct]
  rw [← routes_nodup_iff]
  constructor
  · intro h
    rw [or_iff_not_imp_left]
    intro hb1 s hs
    have hpos : 0 < net.b1U.length := List.length_pos_iff.mpr hb1
    have hlt : 0 < net.users.length := by
      rw [users, List.length_append]
      omega
    have hroutes := h s hs (net.users[0], 0) (List.mem_zipIdx_iff_getElem?.mpr (List.getElem?_eq_getElem hlt))
    rwa [pathsOf, if_pos hpos] at hroutes
  · intro h s hs x _
    rw [pathsOf]
    by_cases hx : x.2 < net.b1U.length
    · rw [if_pos hx]
      refine h.resolve_left (fun hnil ↦ ?_) s hs
      rw [hnil] at hx
      exact absurd hx (Nat.not_lt_zero _)
    · rw [if_neg hx]
      simp [routes, b2Paths]

/-- What `create_topology` leaves on switches that had neither flows nor groups. -/
structure Generated (net : Network) (meter : ℕ → ℕ) (meters : ℕ → ℕ → ℕ) (d : Datastore) : Prop where
  listed : ∀ s < net.switches, (d s).flows.Listed (net.switchFlows meter meters s)
  ready : net.GroupsReady d
  groups : ∀ s < net.switches, ∀ k ports, (d s).groups k = some ports →
    ∃ g ∈ net.sugList, 0 < g.group ∧ g.outputs = ports

theorem addUsers_listed {mL : ℕ → ℕ → ℕ → ℕ} {topNum : ℕ → ℤ} (h : (c.now s).flows.Listed fs) :
    ((net.users.zipIdx.foldl (net.addUser mL topNum) c).now s).flows.Listed
      (fs ++ net.users.zipIdx.flatMap (net.userFlows (fun u ↦ mL u (topNum u).toNat) s)) := by
  refine h.foldl (fun c : Controller ↦ (c.now s).flows) fun x hx c fs hfs ↦ ?_
  rw [addUser, if_pos (user_ne_noUser (List.mem_zipIdx_iff_getElem?.mp hx))]
  exact Controller.addFlows_listed hfs _

theorem createTopology_generated (mL : ℕ → ℕ → ℕ → ℕ) {topNum : ℕ → ℤ}
    (htop : topNum net.users.length = 0)
    (hempty : ∀ s < net.switches, (∀ id, (c.now s).flows.get id = none) ∧
      ∀ k, (c.now s).groups k = none) :
    net.Generated (mL net.users.length 1)
      (fun u ↦ mL u (update topNum net.users.length (-1) u).toNat)
      (net.createTopology net.b1U net.b2U mL topNum c).1.now := by
  obtain ⟨hready, hkeep⟩ := addArps_groups net (mL net.users.length 1)
    (suggest_pairwise [] (fun _ ↦ 1) net.arpList) c
  rw [createTopology_eq htop]
  refine ⟨fun s hs ↦ ?_, fun g hg hpos ↦ ?_, fun s hs k ports hk ↦ ?_⟩
  · exact addUsers_listed (addArps_listed (.nil (hempty s hs).1))
  · rw [addUsers_same (·.groups) (fun _ _ ↦ rfl)]
    exact hready g hg hpos
  · rw [addUsers_same (·.groups) (fun _ _ ↦ rfl)] at hk
    by_contra hnone
    have hother : ∀ g ∈ net.sugList, g.first.switch = s → 0 < g.group → g.group ≠ k := by
      rintro g hg rfl hpos rfl
      have hports := (hready g hg hpos).symm.trans hk
      exact hnone ⟨g, hg, hpos, Option.some.inj hports⟩
    have hold := (hkeep s k hother).symm.trans hk
    rw [(hempty s hs).2 k] at hold
    cases hold

namespace Generated

variable {d : Datastore}

theorem forwards (h : net.Generated meter meters d) {u : ℕ} {a : Address}
    (ha : net.users[u]? = some a) (hs : s < net.switches) {r : Route}
    (hr : r ∈ net.routes (net.pathsOf u) s) {source destination : Address}
    (hpacket : r.direction.address source destination = a) :
    Forwards (d s) r.inPort r.outPort source destination := by
  constructor
  · obtain ⟨y, hy, rfl⟩ := List.mem_map.mp ((grouped_switch_perm _ s).mem_iff.mpr hr)
    obtain ⟨hy, hswitch⟩ := List.mem_filter.mp hy
    have hflow : _ ∈ net.userFlows meters s (a, u) :=
      mem_userFlows.mpr ⟨y, hy, of_decide_eq_true hswitch, rfl⟩
    have hlist := List.mem_append_right (net.arpFlows meter s)
      (List.mem_flatMap.mpr ⟨(a, u), List.mem_zipIdx_iff_getElem?.mpr ha, hflow⟩)
    obtain ⟨id, hid⟩ := (h.listed s hs).mem_iff.mpr hlist
    obtain ⟨hg, hmem⟩ := mem_grouped hy
    refine ⟨id, _, hid, (sugList_members hg hmem).2.1.symm, y.2.direction, ?_⟩
    rw [hpacket]
  · intro id f hf hmatch
    obtain ⟨hinPort, dir, htype⟩ := hmatch
    rcases List.mem_append.mp ((h.listed s hs).mem_iff.mp ⟨id, hf⟩) with hflow | hflow
    · obtain ⟨g, -, -, rfl⟩ := mem_arpFlows.mp hflow
      cases htype
    · obtain ⟨x, -, hflow⟩ := List.mem_flatMap.mp hflow
      obtain ⟨y, hy, rfl, rfl⟩ := mem_userFlows.mp hflow
      obtain ⟨hg, -⟩ := mem_grouped hy
      obtain ⟨hroute, hswitch⟩ := List.mem_filter.mp hr
      have hmem : r ∈ y.1.members := by
        rw [members_eq hg]
        refine List.mem_filter.mpr ⟨hroute, decide_eq_true ?_⟩
        exact Prod.ext (of_decide_eq_true hswitch).2 hinPort.symm
      exact delivers_action hg hmem (h.ready y.1 hg)

theorem covered (h : net.Generated meter meters d) {r : Route} (hr : r ∈ net.arpList) :
    ∃ id f, (d r.switch).flows.get id = some f ∧ f.type = .arp ∧ f.inPort = r.inPort ∧
      Delivers (d r.switch) r.outPort f.action := by
  obtain ⟨g, hg, hmem⟩ := exists_suggestion hr
  obtain ⟨hswitch, hinPort, -⟩ := sugList_members hg hmem
  have hflow : arpFlow meter g ∈ net.switchFlows meter meters r.switch :=
    List.mem_append_left _ (mem_arpFlows.mpr ⟨g, hg, hswitch.symm, rfl⟩)
  obtain ⟨id, hid⟩ := (h.listed _ (mem_arpList hr)).mem_iff.mpr hflow
  refine ⟨id, _, hid, rfl, hinPort.symm, ?_⟩
  rw [hswitch]
  exact delivers_action hg hmem (h.ready g hg)

theorem groups_iff (h : net.Generated meter meters d) :
    (∀ s < net.switches, ∀ k ports, (d s).groups k = some ports → ports.Nodup) ↔
      net.OutputsDistinct := by
  rw [outputsDistinct_iff]
  constructor
  · intro hd g hg hpos
    exact hd _ (first_switch_lt hg) _ _ (h.ready g hg hpos)
  · intro hall s hs k ports hk
    obtain ⟨g, hg, hpos, rfl⟩ := h.groups s hs k ports hk
    exact hall g hg hpos

theorem flows_iff (h : net.Generated meter meters d) :
    (∀ s < net.switches, ∀ id id' f f', (d s).flows.get id = some f →
      (d s).flows.get id' = some f' → f.key = f'.key → id = id') ↔
      net.b1U = [] ∨ net.InputsDistinct := by
  rw [← keys_nodup_iff meter meters]
  exact forall₂_congr fun s hs ↦ (h.listed s hs).keys_nodup_iff Flow.key

theorem bound (h : net.Generated meter meters d) {a : Address} (hs : s < net.switches)
    {ids : List ℕ} (hids : ids.Nodup)
    (hof : ∀ id ∈ ids, ∃ f, (d s).flows.get id = some f ∧ f.type.user = some a) :
    ids.length ≤ net.maxNumOfFlowsPerUser := by
  have hlength := (h.listed s hs).length_le (fun f ↦ f.type.user = some a) hids
    (fun id hid ↦ by simpa using hof id hid)
  have harp : (net.arpFlows meter s).filter (fun f ↦ f.type.user = some a) = [] := by
    rw [List.filter_eq_nil_iff]
    intro f hf
    obtain ⟨g, -, -, rfl⟩ := mem_arpFlows.mp hf
    simp [arpFlow, FlowType.user]
  have hother : ∀ x : Address × ℕ, x.1 ≠ a →
      (net.userFlows meters s x).filter (fun f ↦ f.type.user = some a) = [] := by
    intro x hne
    rw [List.filter_eq_nil_iff]
    intro f hf
    obtain ⟨y, -, -, rfl⟩ := mem_userFlows.mp hf
    simpa [FlowType.user] using hne
  have haddresses : net.users.zipIdx.Pairwise fun x y ↦ x.1 ≠ y.1 := by
    rw [← List.pairwise_map, List.zipIdx_map_fst]
    exact net.nodup
  refine hlength.trans ?_
  rw [switchFlows, List.filter_append, harp, List.nil_append, List.filter_flatMap]
  apply length_flatMap_le
  · refine haddresses.imp fun {x y} hne ↦ ?_
    by_cases hx : x.1 = a
    · exact .inr (hother y fun hy ↦ hne (hx.trans hy.symm))
    · exact .inl (hother x hx)
  · intro x _
    refine (List.length_filter_le _ _).trans ?_
    rw [userFlows, List.length_map]
    exact (List.length_filter_le _ _).trans (ipv4Flows_length_le x.2 x.1 _)

end Generated

end Network

/-- The flows and groups are right when the output ports of an input port repeat the first
only, and no two port pairs of the first path share an end. -/
theorem compiles_iff (net : Network) (mL : ℕ → ℕ → ℕ → ℕ) (topNum : ℕ → ℤ) (c : Controller)
    (htop : topNum net.users.length = 0)
    (hempty : ∀ s < net.switches, (∀ id, (c.now s).flows.get id = none) ∧
      ∀ k, (c.now s).groups k = none) :
    Compiles net (net.createTopology net.b1U net.b2U mL topNum c).1.now ↔
      net.OutputsDistinct ∧ (net.b1U = [] ∨ net.InputsDistinct) := by
  have h := Network.createTopology_generated mL htop hempty
  constructor
  · intro hd
    exact ⟨h.groups_iff.mp hd.groups, h.flows_iff.mp hd.flows⟩
  · intro hnet
    obtain ⟨houtputs, hinputs⟩ := hnet
    refine ⟨fun u a ha s hs r hr source destination hpacket ↦ ?_, fun r hr ↦ h.covered hr,
      h.groups_iff.mpr houtputs, h.flows_iff.mpr hinputs, fun a _ s hs ids hids hof ↦ ?_⟩
    · exact h.forwards ha hs hr hpacket
    · exact h.bound hs hids hof

/-- Two paths over one switch that part behind port 1. -/
def forked : Network where
  switches := 1
  paths := [[⟨0, [(1, 4), (5, 8)]⟩], [⟨0, [(1, 6)]⟩]]
  b1U := [['1', '0', '.', '0', '.', '0', '.', '1']]
  b2U := []
  switch_lt := by decide
  isAddress := by decide
  nodup := by decide

theorem compiles_forked : Compiles forked
    (forked.createTopology forked.b1U forked.b2U (fun u t _ ↦ meterNum u t) (fun _ ↦ 0)
      (Traced.start fun _ ↦ .empty)).1.now := by
  refine (compiles_iff forked _ _ _ rfl fun s _ ↦ ⟨fun id ↦ rfl, fun k ↦ rfl⟩).mpr ⟨?_, .inr ?_⟩
  · decide
  · decide

/-- The first path sends port 1 to two ports, and a second path repeats one of them. -/
def overlapping : Network where
  switches := 1
  paths := [[⟨0, [(1, 2), (1, 3)]⟩], [⟨0, [(1, 3)]⟩]]
  b1U := [['1', '0', '.', '0', '.', '0', '.', '1']]
  b2U := []
  switch_lt := by decide
  isAddress := by decide
  nodup := by decide

theorem not_compiles : ¬ ∀ (net : Network) (mL : ℕ → ℕ → ℕ → ℕ) (topNum : ℕ → ℤ) (c : Controller),
    topNum net.users.length = 0 →
      (∀ s < net.switches, (∀ id, (c.now s).flows.get id = none) ∧ ∀ k, (c.now s).groups k = none) →
        Compiles net (net.createTopology net.b1U net.b2U mL topNum c).1.now := by
  intro h
  have hempty : ∀ s < overlapping.switches,
      (∀ id, (((Traced.start fun _ ↦ .empty : Controller).now s).flows.get id = none)) ∧
        ∀ k, ((Traced.start fun _ ↦ .empty : Controller).now s).groups k = none :=
    fun s _ ↦ ⟨fun id ↦ rfl, fun k ↦ rfl⟩
  have hd := h overlapping (fun u t _ ↦ meterNum u t) (fun _ ↦ 0) (Traced.start fun _ ↦ .empty) rfl hempty
  have hgroup : ((overlapping.createTopology overlapping.b1U overlapping.b2U
      (fun u t _ ↦ meterNum u t) (fun _ ↦ 0) (Traced.start fun _ ↦ .empty)).1.now 0).groups 1 =
        some [2, 3, 3] := by
    decide
  have hnodup := hd.groups 0 (by decide) 1 _ hgroup
  revert hnodup
  decide

end EdgeSlice.Sdn
