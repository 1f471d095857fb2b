import EdgeSlice.Sdn.Windows
import Mathlib.Data.List.Perm.Basic
import Mathlib.Algebra.GroupWithZero.Nat

namespace EdgeSlice.Sdn

open Function

/-- The port pairs of a path on one switch: an entry of `s_nums` with the entry of `ports`. -/
structure Hop where
  switch : ℕ
  ports : List (ℕ × ℕ)

/-- An entry of `arp_list`. -/
structure Route where
  switch : ℕ
  inPort : ℕ
  outPort : ℕ
  direction : Direction
  path : ℕ
  deriving DecidableEq

def IsAddress (a : Address) : Prop := ∀ x ∈ a, x.isDigit = true ∨ x = '.'

instance (a : Address) : Decidable (IsAddress a) :=
  List.decidableBAll (fun x : Char ↦ x.isDigit = true ∨ x = '.') a

/-- The configuration of `init_network_v4` and of the topology in `flow_v013`. -/
structure Network where
  switches : ℕ
  paths : List (List Hop)
  b1U : List Address
  b2U : List Address
  switch_lt : ∀ path ∈ paths, ∀ hop ∈ path, hop.switch < switches
  isAddress : ∀ a ∈ b1U ++ b2U, IsAddress a
  nodup : (b1U ++ b2U).Nodup

/-- The routes with one input port on one switch. They form a group when they have more
than one output port; `group` is 0 otherwise. -/
structure Suggestion where
  group : ℕ
  first : Route
  merged : List Route
  outputs : List ℕ

namespace Suggestion

def members (g : Suggestion) : List Route := g.first :: g.merged

def action (g : Suggestion) : Action := if 0 < g.group then .group g.group else .output g.first.outPort

end Suggestion

/-- The later routes with the switch and the input port of `r`. -/
def sameInput (r : Route) (rest : List Route) : List Route :=
  rest.filter fun q ↦ (q.switch, q.inPort) = (r.switch, r.inPort)

/-- `group_list` without the output port of `r`. -/
def otherOutputs (r : Route) (rest : List Route) : List ℕ :=
  ((sameInput r rest).filter (·.outPort ≠ r.outPort)).map (·.outPort)

/-- The loop of `create_topology` that fills `sug_list`. A route is marked as merged when
an earlier one has its switch and input port, which are then in `seen`. -/
def suggest (seen : List (ℕ × ℕ)) (groupNumCounter : ℕ → ℕ) : List Route → List Suggestion
  | [] => []
  | r :: rest =>
    if (r.switch, r.inPort) ∈ seen then suggest seen groupNumCounter rest
    else if otherOutputs r rest = [] then
      ⟨0, r, sameInput r rest, [r.outPort]⟩ ::
        suggest ((r.switch, r.inPort) :: seen) groupNumCounter rest
    else
      ⟨groupNumCounter r.switch, r, sameInput r rest, r.outPort :: otherOutputs r rest⟩ ::
        suggest ((r.switch, r.inPort) :: seen)
          (update groupNumCounter r.switch (groupNumCounter r.switch + 1)) rest

/-- The entry of `b1_u_mod` and `b2_u_mod` for a user who is not named. -/
def noUser : Address := ['n', 'o', 'n', 'e']

def pathRoutes (p : ℕ) (path : List Hop) : List Route :=
  path.flatMap fun hop ↦ hop.ports.flatMap fun cn ↦
    [⟨hop.switch, cn.1, cn.2, .source, p⟩, ⟨hop.switch, cn.2, cn.1, .destination, p⟩]

namespace Network

def users (net : Network) : List Address := net.b1U ++ net.b2U

/-- The number of users, with the one of the ARP flows. -/
def nou (net : Network) : ℕ := net.users.length + 1

theorem lt_nou {net : Network} {u : ℕ} (hu : u < net.users.length) : u < net.nou :=
  Nat.lt_succ_of_lt hu

def maxNumOfFlowsPerUser (net : Network) : ℕ :=
  net.paths.foldl (fun maxFlows path ↦
    let tempCount := (path.map (·.ports.length)).sum
    if maxFlows < tempCount then tempCount * 2 else maxFlows) 0

/-- `arp_list`: every port pair in both directions. -/
def arpList (net : Network) : List Route :=
  net.paths.zipIdx.flatMap fun (path, p) ↦ pathRoutes p path

def sugList (net : Network) : List Suggestion := suggest [] (fun _ ↦ 1) net.arpList

/-- The routes of some paths, each with its entry of `sug_list`. -/
def grouped (net : Network) (paths : List ℕ) : List (Suggestion × Route) :=
  net.sugList.flatMap fun g ↦ (g.members.filter (·.path ∈ paths)).map fun r ↦ (g, r)

/-- The IPv4 flows of a user, with their switches. -/
def ipv4Flows (net : Network) (paths : List ℕ) (address : Address) (meter : ℕ → ℕ) :
    List (ℕ × Flow) :=
  (net.grouped paths).map fun (g, r) ↦ (g.first.switch,
    ⟨.ipv4 r.direction address, g.first.inPort, meter g.first.switch, g.action, 89⟩)

def b1Paths : List ℕ := [0]

def b2Paths : List ℕ := []

/-- The ARP flow for the routes of one input port, after their group. -/
def addArp (net : Network) (meter : ℕ → ℕ) (c : Controller) (g : Suggestion) : Controller :=
  let c := if 0 < g.group then c.request g.first.switch (·.putGroup g.group g.outputs) else c
  c.addFlowWithMeter net.maxNumOfFlowsPerUser g.first.switch
    ⟨.arp, g.first.inPort, meter g.first.switch, g.action, if 0 < g.group then 90 else 91⟩

/-- The loops of `create_topology` over the users of one base station, the first of whom
has the number `base`. -/
def createUsers (net : Network) (paths : List ℕ) (base : ℕ) (users : List Address)
    (mL : ℕ → ℕ → ℕ → ℕ) (topNum : ℕ → ℤ) (c : Controller) : Controller :=
  users.zipIdx.foldl (fun c (a, u) ↦
    if a ≠ noUser then
      c.addFlows net.maxNumOfFlowsPerUser
        (net.ipv4Flows paths a (mL (base + u) (topNum (base + u)).toNat))
    else c) c

/-- `create_topology`. The entry of `top_num` for the ARP flows is 0 until they are there
and −1 afterwards. -/
def createTopology (net : Network) (b1U b2U : List Address) (mL : ℕ → ℕ → ℕ → ℕ)
    (topNum : ℕ → ℤ) (c : Controller) : Controller × (ℕ → ℤ) :=
  let uIndex := b1U.length + b2U.length
  let c := if topNum uIndex = 0 then net.sugList.foldl (net.addArp (mL uIndex 1)) c else c
  let topNum := update topNum uIndex (-1)
  let c := net.createUsers b1Paths 0 b1U mL topNum c
  (net.createUsers b2Paths b1U.length b2U mL topNum c, topNum)

end Network

section Suggestions

variable {seen : List (ℕ × ℕ)} {counter : ℕ → ℕ} {routes : List Route} {g : Suggestion}

theorem outPort_of_sameInput {q r : Route} {rest : List Route} (hq : q ∈ r :: sameInput r rest) :
    q.switch = r.switch ∧ q.inPort = r.inPort ∧ q.outPort ∈ r.outPort :: otherOutputs r rest := by
  rcases List.mem_cons.mp hq with rfl | hq
  · exact ⟨rfl, rfl, List.mem_cons_self⟩
  · have hkey := of_decide_eq_true (List.mem_filter.mp hq).2
    obtain ⟨hswitch, hinPort⟩ := Prod.mk.inj hkey
    refine ⟨hswitch, hinPort, ?_⟩
    by_cases hout : q.outPort = r.outPort
    · rw [hout]
      exact List.mem_cons_self
    · refine List.mem_cons_of_mem _ (List.mem_map_of_mem (List.mem_filter.mpr ⟨hq, ?_⟩))
      exact decide_eq_true hout

/-- A suggestion covers routes of one switch and input port, and its group has all their
output ports. -/
theorem suggest_members (hcounter : ∀ s, 1 ≤ counter s) (hg : g ∈ suggest seen counter routes)
    {q : Route} (hq : q ∈ g.members) :
    q.switch = g.first.switch ∧ q.inPort = g.first.inPort ∧ q.outPort ∈ g.outputs ∧
      (g.group = 0 → q.outPort = g.first.outPort) := by
  induction routes generalizing seen counter with
  | nil => cases hg
  | cons r rest ih =>
    rw [suggest] at hg
    by_cases hseen : (r.switch, r.inPort) ∈ seen
    · rw [if_pos hseen] at hg
      exact ih hcounter hg
    · rw [if_neg hseen] at hg
      by_cases hothers : otherOutputs r rest = []
      · rw [if_pos hothers] at hg
        rcases List.mem_cons.mp hg with rfl | hg
        · obtain ⟨hswitch, hinPort, hout⟩ := outPort_of_sameInput hq
          rw [hothers] at hout
          exact ⟨hswitch, hinPort, hout, fun _ ↦ List.mem_singleton.mp hout⟩
        · exact ih hcounter hg
      · rw [if_neg hothers] at hg
        rcases List.mem_cons.mp hg with rfl | hg
        · obtain ⟨hswitch, hinPort, hout⟩ := outPort_of_sameInput hq
          refine ⟨hswitch, hinPort, hout, fun hgroup ↦ ?_⟩
          have hpos := hcounter r.switch
          rw [show counter r.switch = 0 from hgroup] at hpos
          cases hpos
        · refine ih (fun s ↦ ?_) hg
          by_cases hs : s = r.switch
          · rw [hs, update_self]
            omega
          · rw [update_of_ne hs]
            exact hcounter s

theorem suggest_group (hg : g ∈ suggest seen counter routes) (hgroup : 0 < g.group) :
    counter g.first.switch ≤ g.group := by
  induction routes generalizing seen counter with
  | nil => cases hg
  | cons r rest ih =>
    rw [suggest] at hg
    by_cases hseen : (r.switch, r.inPort) ∈ seen
    · rw [if_pos hseen] at hg
      exact ih hg
    · rw [if_neg hseen] at hg
      by_cases hothers : otherOutputs r rest = []
      · rw [if_pos hothers] at hg
        rcases List.mem_cons.mp hg with rfl | hg
        · cases hgroup
        · exact ih hg
      · rw [if_neg hothers] at hg
        rcases List.mem_cons.mp hg with rfl | hg
        · exact le_rfl
        · have h := ih hg
          by_cases hs : g.first.switch = r.switch
          · rw [hs, update_self] at h
            rw [hs]
            omega
          · rwa [update_of_ne hs] at h

theorem suggest_pairwise (seen : List (ℕ × ℕ)) (counter : ℕ → ℕ) (routes : List Route) :
    (suggest seen counter routes).Pairwise fun g h ↦
      g.first.switch = h.first.switch → 0 < h.group → g.group ≠ h.group := by
  induction routes generalizing seen counter with
  | nil => exact List.Pairwise.nil
  | cons r rest ih =>
    rw [suggest]
    by_cases hseen : (r.switch, r.inPort) ∈ seen
    · rw [if_pos hseen]
      exact ih _ _
    · rw [if_neg hseen]
      by_cases hothers : otherOutputs r rest = []
      · rw [if_pos hothers]
        refine List.pairwise_cons.mpr ⟨?_, ih _ _⟩
        intro h _ _ hgroup
        exact Nat.ne_of_lt hgroup
      · rw [if_neg hothers]
        refine List.pairwise_cons.mpr ⟨?_, ih _ _⟩
        intro h hh hswitch hgroup
        have hle := suggest_group hh hgroup
        rw [← hswitch, update_self] at hle
        exact Nat.ne_of_lt hle

theorem sameInput_perm {r : Route} (rest : List Route) (hr : (r.switch, r.inPort) ∉ seen) :
    (sameInput r rest ++
      rest.filter fun q ↦ (q.switch, q.inPort) ∉ (r.switch, r.inPort) :: seen).Perm
      (rest.filter fun q ↦ (q.switch, q.inPort) ∉ seen) := by
  have h := List.filter_append_perm
    (fun q : Route ↦ decide ((q.switch, q.inPort) = (r.switch, r.inPort)))
    (rest.filter fun q ↦ (q.switch, q.inPort) ∉ seen)
  rw [List.filter_filter, List.filter_filter] at h
  refine .trans (.of_eq ?_) h
  congr 1
  · refine List.filter_congr (fun q _ ↦ ?_)
    by_cases hq : (q.switch, q.inPort) = (r.switch, r.inPort)
    · rw [hq]
      simp [hr]
    · simp [hq]
  · refine List.filter_congr (fun q _ ↦ ?_)
    simp [List.mem_cons, not_or]

theorem suggest_perm (seen : List (ℕ × ℕ)) (counter : ℕ → ℕ) (routes : List Route) :
    ((suggest seen counter routes).flatMap Suggestion.members).Perm
      (routes.filter fun q ↦ (q.switch, q.inPort) ∉ seen) := by
  induction routes generalizing seen counter with
  | nil => exact .nil
  | cons r rest ih =>
    rw [suggest]
    by_cases hseen : (r.switch, r.inPort) ∈ seen
    · rw [if_pos hseen, List.filter_cons_of_neg (by simpa using hseen)]
      exact ih _ _
    · rw [if_neg hseen, List.filter_cons_of_pos (by simpa using hseen)]
      have hcons : ∀ counter', ((r :: sameInput r rest) ++
          (suggest ((r.switch, r.inPort) :: seen) counter' rest).flatMap Suggestion.members).Perm
          (r :: rest.filter fun q ↦ (q.switch, q.inPort) ∉ seen) := by
        intro counter'
        exact .cons r (((ih _ counter').append_left _).trans (sameInput_perm rest hseen))
      by_cases hothers : otherOutputs r rest = []
      · rw [if_pos hothers]
        exact hcons counter
      · rw [if_neg hothers]
        exact hcons _

end Suggestions

namespace Network

variable (net : Network)

/-- The routes of some paths on one switch. -/
def routes (paths : List ℕ) (s : ℕ) : List Route :=
  net.arpList.filter fun r ↦ r.path ∈ paths ∧ r.switch = s

variable {net}

theorem mem_arpList {r : Route} (hr : r ∈ net.arpList) : r.switch < net.switches := by
  obtain ⟨⟨path, p⟩, hpath, hr⟩ := List.mem_flatMap.mp hr
  obtain ⟨hop, hhop, hr⟩ := List.mem_flatMap.mp hr
  obtain ⟨cn, -, hr⟩ := List.mem_flatMap.mp hr
  have hlt := net.switch_lt path (List.fst_mem_of_mem_zipIdx hpath) hop hhop
  rcases List.mem_cons.mp hr with rfl | hr
  · exact hlt
  · rw [List.mem_singleton.mp hr]
    exact hlt

theorem mem_grouped {paths : List ℕ} {x : Suggestion × Route} (hx : x ∈ net.grouped paths) :
    x.1 ∈ net.sugList ∧ x.2 ∈ x.1.members := by
  obtain ⟨g, hg, hx⟩ := List.mem_flatMap.mp hx
  obtain ⟨r, hr, rfl⟩ := List.mem_map.mp hx
  exact ⟨hg, List.mem_of_mem_filter hr⟩

theorem sugList_members {g : Suggestion} (hg : g ∈ net.sugList) {r : Route} (hr : r ∈ g.members) :
    r.switch = g.first.switch ∧ r.inPort = g.first.inPort ∧ r.outPort ∈ g.outputs ∧
      (g.group = 0 → r.outPort = g.first.outPort) :=
  suggest_members (fun _ ↦ le_rfl) hg hr

theorem sugList_perm : (net.sugList.flatMap Suggestion.members).Perm net.arpList := by
  have h := suggest_perm [] (fun _ ↦ 1) net.arpList
  rw [sugList]
  simpa only [List.not_mem_nil, not_false_eq_true, decide_true, List.filter_true] using h

theorem first_switch_lt {g : Suggestion} (hg : g ∈ net.sugList) :
    g.first.switch < net.switches :=
  mem_arpList (sugList_perm.mem_iff.mp (List.mem_flatMap.mpr ⟨g, hg, List.mem_cons_self⟩))

theorem grouped_perm (paths : List ℕ) :
    ((net.grouped paths).map Prod.snd).Perm (net.arpList.filter (·.path ∈ paths)) := by
  have h : (net.grouped paths).map Prod.snd =
      (net.sugList.flatMap Suggestion.members).filter (·.path ∈ paths) := by
    rw [grouped, List.map_flatMap, List.filter_flatMap]
    simp only [List.map_map, Function.comp_def, List.map_id']
  rw [h]
  exact sugList_perm.filter _

/-- On one switch a user has one flow for each of his routes. -/
theorem grouped_switch_perm (paths : List ℕ) (s : ℕ) :
    (((net.grouped paths).filter (·.1.first.switch = s)).map Prod.snd).Perm (net.routes paths s) := by
  have h : ((net.grouped paths).filter (·.1.first.switch = s)).map Prod.snd =
      ((net.grouped paths).map Prod.snd).filter (·.switch = s) := by
    rw [List.filter_map]
    congr 1
    refine List.filter_congr (fun x hx ↦ ?_)
    obtain ⟨hg, hr⟩ := mem_grouped hx
    rw [Function.comp_apply, (sugList_members hg hr).1]
  rw [h]
  refine ((grouped_perm paths).filter _).trans (.of_eq ?_)
  rw [routes, List.filter_filter]
  refine List.filter_congr (fun r _ ↦ ?_)
  rw [Bool.decide_and, Bool.and_comm]

theorem pathRoutes_length (p : ℕ) (path : List Hop) :
    (pathRoutes p path).length = (path.map (·.ports.length)).sum * 2 := by
  induction path with
  | nil => rfl
  | cons hop path ih =>
    have hhop : (hop.ports.flatMap fun cn ↦
        [(⟨hop.switch, cn.1, cn.2, .source, p⟩ : Route),
          ⟨hop.switch, cn.2, cn.1, .destination, p⟩]).length = hop.ports.length * 2 := by
      rw [List.length_flatMap]
      simp
    rw [pathRoutes, List.flatMap_cons, List.length_append, hhop, ← pathRoutes, ih, List.map_cons,
      List.sum_cons, Nat.add_mul]

theorem path_of_mem_pathRoutes {p : ℕ} {path : List Hop} {r : Route} (hr : r ∈ pathRoutes p path) :
    r.path = p := by
  obtain ⟨hop, -, hr⟩ := List.mem_flatMap.mp hr
  obtain ⟨cn, -, hr⟩ := List.mem_flatMap.mp hr
  rcases List.mem_cons.mp hr with rfl | hr
  · rfl
  · rw [List.mem_singleton.mp hr]

theorem maxFlows_foldl_ge (paths : List (List Hop)) (maxFlows : ℕ) :
    maxFlows ≤ paths.foldl (fun maxFlows path ↦
      let tempCount := (path.map (·.ports.length)).sum
      if maxFlows < tempCount then tempCount * 2 else maxFlows) maxFlows := by
  induction paths generalizing maxFlows with
  | nil => exact le_rfl
  | cons path paths ih =>
    rw [List.foldl_cons]
    refine le_trans ?_ (ih _)
    dsimp only
    split
    · omega
    · exact le_rfl

/-- The routes of the first path number at most `max_num_of_flows_per_user`. -/
theorem firstPath_length_le :
    (net.arpList.filter (·.path ∈ b1Paths)).length ≤ net.maxNumOfFlowsPerUser := by
  rw [arpList, maxNumOfFlowsPerUser]
  cases net.paths with
  | nil => exact le_rfl
  | cons path paths =>
    have hlater : ((paths.zipIdx (0 + 1)).flatMap fun (path, p) ↦ pathRoutes p path).filter
        (·.path ∈ b1Paths) = [] := by
      rw [List.filter_eq_nil_iff]
      intro r hr
      obtain ⟨⟨path', p⟩, hpath, hr⟩ := List.mem_flatMap.mp hr
      have hp := List.le_snd_of_mem_zipIdx hpath
      have hrp : r.path = p := path_of_mem_pathRoutes hr
      simp only [b1Paths, List.mem_singleton, decide_eq_true_eq]
      omega
    rw [List.zipIdx_cons, List.flatMap_cons, List.filter_append, hlater, List.append_nil]
    refine le_trans (List.length_filter_le _ _) ?_
    rw [pathRoutes_length, List.foldl_cons]
    refine le_trans ?_ (maxFlows_foldl_ge paths _)
    dsimp only
    split
    · exact le_rfl
    · omega

end Network

end EdgeSlice.Sdn
