import EdgeSlice.Fold
import EdgeSlice.Sdn.Topology
import EdgeSlice.Sdn.UserFlows
import Mathlib.Data.List.Infix

namespace EdgeSlice.Sdn

open Function

/-- What `objs.pkl` keeps between two runs, with the datastore: the selected topologies and
the meters by user, topology and switch. -/
structure State where
  datastore : Datastore
  topNum : ℕ → ℤ
  mL : ℕ → ℕ → ℕ → ℕ

/-- A request: addresses, each with a bandwidth. -/
abbrev Request (β : Type*) := List (Address × β)

namespace Network

def maxNumMeters (net : Network) : ℕ := 1024 / (2 * net.nou)

/-- The rows of `f_l` for a user, a topology and a switch. -/
def flowRows (net : Network) : ℕ := 512 / (2 * net.nou)

/-- The loops of `init_network_v4` that add the meters, with 10 megabytes per second. -/
def initMeters (net : Network) (c : Controller) : (ℕ → ℕ → ℕ → ℕ) × Controller :=
  (List.range net.nou).foldl (fun x e ↦
    (List.range 2).foldl (fun x u ↦
      (List.range net.switches).foldl (fun (mL, c) s ↦
        let (meterNum, c) := c.addMeter s (10 * 8 * 1000)
        (update mL e (update (mL e) u (update (mL e u) s meterNum)), c)) x) x) (fun _ _ _ ↦ 0, c)

/-- `init_network_v4` up to the first `objs.pkl`. There is no room for the first meter when
the users are too many, which is an `IndexError`. -/
def initNetwork (net : Network) (before : Datastore) : Option State :=
  if 0 < net.switches ∧ net.maxNumMeters = 0 then none
  else
    let c := (List.range net.switches).foldl Controller.clear (Traced.start before)
    let (mL, c) := net.initMeters c
    let (c, topNum) := net.createTopology net.b1U net.b2U mL (fun _ ↦ 0) c
    some ⟨c.now, topNum, mL⟩

/-- The search for a named user: `find` in the addresses of the first base station, then
equality with one of the second. -/
def lookup (net : Network) (name : Address) : Option ℕ :=
  match net.b1U.findIdx? fun a ↦ name <:+: a with
  | some ii => some ii
  | none => (net.b2U.findIdx? fun a ↦ a = name).map (net.b1U.length + ·)

end Network

/-- The variables of `multiple_switch_test_v006`. `found` tells whether `thread_index` has
been assigned. -/
structure Session where
  controller : Controller
  topNum : ℕ → ℤ
  b1UMod : List Address
  b2UMod : List Address
  found : Bool

namespace Network

variable {β : Type*} (net : Network) (rate : β → ℤ) (mL : ℕ → ℕ → ℕ → ℕ)

/-- The change of `top_num`. -/
def otherTopology (t : ℤ) : ℤ := if t = 1 then 0 else if t = 0 then 1 else t

/-- The body of the loop over `swl`. The target of a thread is computed before the thread
is made. `modify_f_l` reads the first row of `f_l`; when there is none the run ends. -/
def changeSwitch (new old : ℕ → ℕ) (bw : β) (c : Controller) (s : ℕ) :
    Except Controller Controller :=
  let c := c.modifyMeter net.maxNumOfFlowsPerUser s (new s) (rate bw)
  let c := c.deleteMeter net.maxNumOfFlowsPerUser s (old s)
  if net.flowRows = 0 then .error c else .ok c

/-- What the main loop does for a user it has found. -/
def changeUser (u : ℕ) (bw : β) (x : Session) : Except Controller Session :=
  let topNum := update x.topNum u (otherTopology (x.topNum u))
  let new := mL u (topNum u).toNat
  let old := mL u (1 - topNum u).toNat
  let swl := (List.range net.switches).filter fun s ↦ 0 < new s
  match swl.foldlM (net.changeSwitch rate new old bw) x.controller with
  | .error c => .error c
  | .ok c => .ok { x with controller := c, topNum := topNum, found := true }

/-- `b1_u_mod` and `b2_u_mod` with the user found at `u`. -/
def markUser (u : ℕ) (x : Session) : Session :=
  if u < net.b1U.length then { x with b1UMod := x.b1UMod.set u (net.users.getD u noUser) }
  else { x with b2UMod := x.b2UMod.set (u - net.b1U.length) (net.users.getD u noUser) }

/-- The main loop. It ends at the first name that is not found. -/
def changeUsers : Request β → Session → Except Controller Session
  | [], x => .ok x
  | (name, bw) :: req, x =>
    match net.lookup name with
    | none => .ok x
    | some u =>
      match net.changeUser rate mL u bw (net.markUser u x) with
      | .error c => .error c
      | .ok x => changeUsers req x

/-- The variables when the main loop begins. -/
def session (st : State) : Session :=
  ⟨Traced.start st.datastore, st.topNum, net.b1U.map fun _ ↦ noUser, net.b2U.map fun _ ↦ noUser,
    false⟩

/-- `multiple_switch_test_v006`, with every datastore on its way. Where the run ends early,
`objs.pkl` stays as it is: without a first user `thread_index` is not defined. -/
def multipleSwitchTest (req : Request β) (st : State) : Controller × State :=
  match net.changeUsers rate st.mL req (net.session st) with
  | .error c => (c, { st with datastore := c.now })
  | .ok x =>
    if x.found then
      let (c, topNum) := net.createTopology x.b1UMod x.b2UMod st.mL x.topNum x.controller
      (c, ⟨c.now, topNum, st.mL⟩)
    else (x.controller, { st with datastore := x.controller.now })

/-- The states after any requests from the set-up on. -/
inductive Reachable (net : Network) (rate : β → ℤ) : State → Prop
  | init {before : Datastore} {st : State} : net.initNetwork before = some st → Reachable net rate st
  | request {st : State} (req : Request β) :
      Reachable net rate st → Reachable net rate (net.multipleSwitchTest rate req st).2

end Network

end EdgeSlice.Sdn

namespace EdgeSlice.Sdn

open Function

namespace Network

variable {β : Type*} (net : Network) (rate : β → ℤ)

/-- The two calls of the loop over `swl`. -/
def turnSwitch (new old : ℕ → ℕ) (bw : β) (c : Controller) (s : ℕ) : Controller :=
  (c.modifyMeter net.maxNumOfFlowsPerUser s (new s) (rate bw)).deleteMeter
    net.maxNumOfFlowsPerUser s (old s)

variable {net rate} {new old : ℕ → ℕ} {bw : β}

theorem turnSwitch_within (c : Controller) (s : ℕ) :
    c.Within (SameOutside fun i m ↦ i = s ∧ (m = new i ∨ m = old i))
      (net.turnSwitch rate new old bw c s) := by
  have hmodify := Controller.modifyMeter_within net.maxNumOfFlowsPerUser s (new s) c (rate bw)
  have hdelete := Controller.deleteMeter_within net.maxNumOfFlowsPerUser s (old s)
    (c.modifyMeter net.maxNumOfFlowsPerUser s (new s) (rate bw))
  apply (hmodify.mono ?_).trans SameOutside.trans (hdelete.mono ?_)
  · refine fun _ _ ↦ SameOutside.mono ?_
    rintro i m ⟨rfl, rfl⟩
    exact ⟨rfl, .inl rfl⟩
  · refine fun _ _ ↦ SameOutside.mono ?_
    rintro i m ⟨rfl, rfl⟩
    exact ⟨rfl, .inr rfl⟩

theorem turnSwitch_kept (c : Controller) (s i id : ℕ) (f : Flow)
    (hf : ((net.turnSwitch rate new old bw c s).now i).flows.get id = some f) :
    (c.now i).flows.get id = some f := by
  have hpruned := (Controller.deleteMeter_pruned net.maxNumOfFlowsPerUser s (old s)
    (c.modifyMeter net.maxNumOfFlowsPerUser s (new s) (rate bw))).now
  rw [turnSwitch] at hf
  refine Controller.modifyMeter_kept net.maxNumOfFlowsPerUser s (new s) c (rate bw) i id f ?_
  by_cases hi : i = s
  · subst hi
    exact hpruned.kept id f hf
  · rwa [hpruned.others i hi] at hf

theorem turnSwitch_bare (rate : β → ℤ) (bw : β) {last s : ℕ} {c : Controller}
    (hc : Placed net.maxNumOfFlowsPerUser last (c.now s)) (hnew : new s < last) (hold : old s < last) :
    Bare ((net.turnSwitch rate new old bw c s).now s) (new s) ∧
      Bare ((net.turnSwitch rate new old bw c s).now s) (old s) := by
  have hpruned := (Controller.deleteMeter_pruned net.maxNumOfFlowsPerUser s (old s)
    (c.modifyMeter net.maxNumOfFlowsPerUser s (new s) (rate bw))).now
  have hplaced := hc.of_kept
    (Controller.modifyMeter_kept net.maxNumOfFlowsPerUser s (new s) c (rate bw) s)
  exact ⟨fun id f hf ↦ Controller.modifyMeter_clean hc hnew (hpruned.kept id f hf),
    fun id f hf ↦ Controller.deleteMeter_clean hplaced hold hf⟩

theorem turnSwitch_rate (c : Controller) (s : ℕ) :
    ((net.turnSwitch rate new old bw c s).now s).meters.get (new s) =
      some ⟨rate bw, 100, rate bw, 1000⟩ := by
  rw [turnSwitch, (Controller.deleteMeter_pruned _ s (old s) _).now.meters]
  exact Controller.modifyMeter_rate _ s (new s) c (rate bw)

/-- What a loop over switches does to the meters `new` and `old` of a user. -/
structure Turned (switches : List ℕ) (new old : ℕ → ℕ) (kbps : ℤ) (c d : Controller) : Prop where
  within : c.Within (SameOutside fun i m ↦ i ∈ switches ∧ (m = new i ∨ m = old i)) d
  kept : ∀ i id f, (d.now i).flows.get id = some f → (c.now i).flows.get id = some f
  bare : ∀ s ∈ switches, Bare (d.now s) (new s) ∧ Bare (d.now s) (old s)
  rate : ∀ s ∈ switches, (d.now s).meters.get (new s) = some ⟨kbps, 100, kbps, 1000⟩

theorem turnSwitches_spec (last : ℕ) {switches : List ℕ} {c : Controller}
    (hc : ∀ s ∈ switches, Placed net.maxNumOfFlowsPerUser last (c.now s) ∧ new s < last ∧ old s < last) :
    Turned switches new old (rate bw) c (switches.foldl (net.turnSwitch rate new old bw) c) := by
  refine ⟨?_, ?_, ?_, ?_⟩
  · refine .foldl (SameOutside.refl _) SameOutside.trans switches (fun c s hs ↦ ?_) c
    refine (turnSwitch_within c s).mono (fun _ _ ↦ SameOutside.mono ?_)
    rintro i m ⟨rfl, hm⟩
    exact ⟨hs, hm⟩
  · intro i id f
    exact List.foldlRecOn switches (net.turnSwitch rate new old bw)
      (motive := fun d ↦ (d.now i).flows.get id = some f → (c.now i).flows.get id = some f) (fun hf ↦ hf)
      (fun d ih s _ hf ↦ ih (turnSwitch_kept d s i id f hf))
  · refine Fold.establishes (I := fun d : Controller ↦ ∀ s ∈ switches,
        Placed net.maxNumOfFlowsPerUser last (d.now s) ∧ new s < last ∧ old s < last)
      (P := fun d s ↦ Bare (d.now s) (new s) ∧ Bare (d.now s) (old s)) ?_ ?_ ?_ hc
    · intro d b hd s hs
      exact ⟨(hd s hs).1.of_kept (turnSwitch_kept d b s), (hd s hs).2⟩
    · intro d s hs hd
      exact turnSwitch_bare rate bw (hd s hs).1 (hd s hs).2.1 (hd s hs).2.2
    · intro d b s _ hs
      exact ⟨hs.1.of_kept (turnSwitch_kept d b s), hs.2.of_kept (turnSwitch_kept d b s)⟩
  · refine Fold.establishes (I := fun _ : Controller ↦ True)
      (P := fun d s ↦ (d.now s).meters.get (new s) = some ⟨rate bw, 100, rate bw, 1000⟩)
      (fun _ _ _ ↦ trivial) (fun d s _ _ ↦ turnSwitch_rate d s) ?_ trivial
    intro d b s _ hs
    by_cases hsb : s = b
    · rw [hsb]
      exact turnSwitch_rate d b
    · rw [← (turnSwitch_within d b).now.meters s _ (fun h ↦ hsb h.1)]
      exact hs

theorem foldlM_changeSwitch (hrows : 0 < net.flowRows) (switches : List ℕ) (c : Controller) :
    switches.foldlM (net.changeSwitch rate new old bw) c =
      .ok (switches.foldl (net.turnSwitch rate new old bw) c) := by
  induction switches generalizing c with
  | nil => rfl
  | cons s switches ih =>
    have hs : net.changeSwitch rate new old bw c s = .ok (net.turnSwitch rate new old bw c s) :=
      if_neg (Nat.ne_of_gt hrows)
    rw [List.foldlM_cons, hs, List.foldl_cons]
    exact ih _

theorem foldlM_changeSwitch_cons (hrows : net.flowRows = 0) (s : ℕ) (switches : List ℕ)
    (c : Controller) :
    (s :: switches).foldlM (net.changeSwitch rate new old bw) c =
      .error (net.turnSwitch rate new old bw c s) := by
  have hs : net.changeSwitch rate new old bw c s = .error (net.turnSwitch rate new old bw c s) :=
    if_pos hrows
  rw [List.foldlM_cons, hs]
  rfl

end Network

/-- `b1_u_mod` and `b2_u_mod` as one list. -/
def Session.mods (x : Session) : List Address := x.b1UMod ++ x.b2UMod

/-- The lists `b1_u_mod` and `b2_u_mod` are as long as those of the users. -/
def Session.Sized (x : Session) (net : Network) : Prop :=
  x.b1UMod.length = net.b1U.length ∧ x.b2UMod.length = net.b2U.length

section Topologies

theorem otherTopology_eq {t : ℤ} (ht : t = 0 ∨ t = 1) : Network.otherTopology t = 1 - t := by
  rcases ht with rfl | rfl <;> rfl

theorem toNat_lt_two {t : ℤ} (ht : t = 0 ∨ t = 1) : t.toNat < 2 := by omega

theorem otherTopology_mem {t : ℤ} (ht : t = 0 ∨ t = 1) : 1 - t = 0 ∨ 1 - t = 1 := by omega

/-- The two topologies of a user are the selected one and the other. -/
theorem topology_cases {t : ℤ} (ht : t = 0 ∨ t = 1) {i : ℕ} (hi : i < 2) :
    i = t.toNat ∨ i = (1 - t).toNat := by omega

end Topologies

namespace Network

variable {β : Type*} (net : Network) (rate : β → ℤ) (mL : ℕ → ℕ → ℕ → ℕ)

/-- The meters are numbered as by `init_network_v4`. -/
def MetersKnown : Prop :=
  ∀ u < net.nou, ∀ t < 2, ∀ s < net.switches, mL u t s = meterNum u t

/-- The users that the main loop finds, with their bandwidths. -/
def found : Request β → List (ℕ × β)
  | [] => []
  | (name, bw) :: req =>
    match net.lookup name with
    | none => []
    | some u => (u, bw) :: found req

/-- The main loop for a user, where `f_l` has rows. -/
def turnUser (x : Session) (p : ℕ × β) : Session :=
  let topNum := update x.topNum p.1 (otherTopology (x.topNum p.1))
  { net.markUser p.1 x with
    controller := (List.range net.switches).foldl
      (net.turnSwitch rate (mL p.1 (topNum p.1).toNat) (mL p.1 (1 - topNum p.1).toNat) p.2)
      x.controller
    topNum := topNum
    found := true }

variable {net rate mL}

theorem lookup_lt {name : Address} {u : ℕ} (h : net.lookup name = some u) :
    u < net.users.length := by
  rw [users, List.length_append]
  rw [lookup] at h
  split at h
  · rename_i ii hii
    obtain ⟨hlt, -⟩ := List.findIdx?_eq_some_iff_findIdx_eq.mp hii
    cases h
    omega
  · obtain ⟨i, hi, rfl⟩ := Option.map_eq_some_iff.mp h
    obtain ⟨hlt, -⟩ := List.findIdx?_eq_some_iff_findIdx_eq.mp hi
    omega

theorem lookup_of_mem_found {req : Request β} {q : ℕ × β} (hq : q ∈ net.found req) :
    ∃ p ∈ req, net.lookup p.1 = some q.1 := by
  induction req with
  | nil => cases hq
  | cons e req ih =>
    rw [found] at hq
    cases h : net.lookup e.1 with
    | none =>
      rw [h] at hq
      cases hq
    | some u =>
      rw [h] at hq
      rcases List.mem_cons.mp hq with rfl | hq
      · exact ⟨e, List.mem_cons_self, h⟩
      · obtain ⟨p, hp, hlookup⟩ := ih hq
        exact ⟨p, List.mem_cons_of_mem _ hp, hlookup⟩

theorem mem_found_lt {req : Request β} {q : ℕ × β} (hq : q ∈ net.found req) :
    q.1 < net.users.length := by
  obtain ⟨p, -, h⟩ := lookup_of_mem_found hq
  exact lookup_lt h

@[simp] theorem markUser_controller (u : ℕ) (x : Session) :
    (net.markUser u x).controller = x.controller := by
  rw [markUser]
  split <;> rfl

@[simp] theorem markUser_topNum (u : ℕ) (x : Session) : (net.markUser u x).topNum = x.topNum := by
  rw [markUser]
  split <;> rfl

/-- The switches of a known user are all in `swl`. -/
theorem swl_eq (hmL : net.MetersKnown mL) {u : ℕ} (hu : u < net.users.length) {t : ℤ}
    (ht : t = 0 ∨ t = 1) :
    (List.range net.switches).filter (fun s ↦ 0 < mL u t.toNat s) = List.range net.switches := by
  refine List.filter_eq_self.mpr (fun s hs ↦ ?_)
  rw [hmL u (lt_nou hu) _ (toNat_lt_two ht) s (List.mem_range.mp hs)]
  exact decide_eq_true (Nat.succ_pos _)

theorem turnUser_topNum_mem {x : Session} (hx : ∀ u < net.users.length, x.topNum u = 0 ∨ x.topNum u = 1)
    (p : ℕ × β) : ∀ u < net.users.length, (net.turnUser rate mL x p).topNum u = 0 ∨
      (net.turnUser rate mL x p).topNum u = 1 := by
  intro u hu
  have hnew : (net.turnUser rate mL x p).topNum u =
      update x.topNum p.1 (otherTopology (x.topNum p.1)) u := rfl
  rw [hnew]
  by_cases hup : u = p.1
  · subst hup
    rw [update_self, otherTopology_eq (hx _ hu)]
    exact otherTopology_mem (hx _ hu)
  · rw [update_of_ne hup]
    exact hx u hu

theorem changeUser_eq (hmL : net.MetersKnown mL) (hrun : net.switches = 0 ∨ 0 < net.flowRows)
    {p : ℕ × β} (hp : p.1 < net.users.length) {x : Session}
    (hx : x.topNum p.1 = 0 ∨ x.topNum p.1 = 1) :
    net.changeUser rate mL p.1 p.2 (net.markUser p.1 x) = .ok (net.turnUser rate mL x p) := by
  have hnew : otherTopology (x.topNum p.1) = 0 ∨ otherTopology (x.topNum p.1) = 1 := by
    rw [otherTopology_eq hx]
    exact otherTopology_mem hx
  rw [changeUser]
  simp only [markUser_controller, markUser_topNum, update_self]
  rw [swl_eq hmL hp hnew, turnUser]
  simp only [update_self]
  rcases hrun with hn | hrows
  · rw [hn]
    rfl
  · rw [foldlM_changeSwitch hrows]

theorem changeUsers_eq (rate : β → ℤ) (hmL : net.MetersKnown mL)
    (hrun : net.switches = 0 ∨ 0 < net.flowRows) (req : Request β) {x : Session}
    (hx : ∀ u < net.users.length, x.topNum u = 0 ∨ x.topNum u = 1) :
    net.changeUsers rate mL req x = .ok ((net.found req).foldl (net.turnUser rate mL) x) := by
  induction req generalizing x with
  | nil => rfl
  | cons e req ih =>
    rw [changeUsers, found]
    cases h : net.lookup e.1 with
    | none => rfl
    | some u =>
      dsimp only
      have hu := lookup_lt h
      rw [changeUser_eq (p := (u, e.2)) hmL hrun hu (hx u hu)]
      exact ih (turnUser_topNum_mem hx _)

/-- Without rows in `f_l` the run ends at the first switch of the first user. -/
theorem changeUsers_error (rate : β → ℤ) (hmL : net.MetersKnown mL) (hn : 0 < net.switches)
    (hrows : net.flowRows = 0) {req : Request β} {p : ℕ × β} {ps : List (ℕ × β)}
    (hfound : net.found req = p :: ps) {x : Session}
    (hx : ∀ u < net.users.length, x.topNum u = 0 ∨ x.topNum u = 1) :
    net.changeUsers rate mL req x =
      .error (net.turnSwitch rate (mL p.1 (1 - x.topNum p.1).toNat) (mL p.1 (x.topNum p.1).toNat) p.2
        x.controller 0) := by
  cases req with
  | nil => cases hfound
  | cons e req =>
    rw [found] at hfound
    cases h : net.lookup e.1 with
    | none =>
      rw [h] at hfound
      cases hfound
    | some u =>
      rw [h] at hfound
      obtain ⟨rfl, -⟩ := List.cons.inj hfound
      have hu := lookup_lt h
      have ht := otherTopology_mem (hx u hu)
      obtain ⟨n, hn⟩ := Nat.exists_eq_succ_of_ne_zero (Nat.ne_of_gt hn)
      have hswl := swl_eq hmL hu ht
      rw [changeUsers, h]
      dsimp only
      rw [changeUser]
      simp only [markUser_controller, markUser_topNum, update_self]
      rw [otherTopology_eq (hx u hu), hswl, hn, List.range_succ_eq_map,
        foldlM_changeSwitch_cons hrows, Int.sub_sub_self]

/-- The meters of the users in a list. -/
def metersOf (net : Network) (us : List ℕ) (s m : ℕ) : Prop :=
  s < net.switches ∧ ∃ u ∈ us, ∃ t < 2, m = meterNum u t

theorem metersOf_mono {us vs : List ℕ} (h : us ⊆ vs) {s m : ℕ} (hm : net.metersOf us s m) :
    net.metersOf vs s m :=
  ⟨hm.1, hm.2.elim fun u hu ↦ ⟨u, h hu.1, hu.2⟩⟩

theorem not_metersOf {us : List ℕ} {u : ℕ} (hu : u ∉ us) {t : ℕ} (ht : t < 2) (s : ℕ) :
    ¬ net.metersOf us s (meterNum u t) := by
  rintro ⟨-, v, hv, t', ht', hm⟩
  exact hu ((meterNum_inj ht ht' hm).1 ▸ hv)

/-- What the main loop has done when it has found the users `us`. -/
structure Switched (net : Network) (us : List ℕ) (x y : Session) : Prop where
  topology : ∀ u < net.users.length, y.topNum u = 0 ∨ y.topNum u = 1
  others : ∀ u, u ∉ us → y.topNum u = x.topNum u
  within : x.controller.Within (SameOutside (net.metersOf us)) y.controller
  kept : ∀ i id f, (y.controller.now i).flows.get id = some f →
    (x.controller.now i).flows.get id = some f
  bare : ∀ u ∈ us, ∀ t < 2, ∀ s < net.switches, Bare (y.controller.now s) (meterNum u t)

theorem turnUser_switched (rate : β → ℤ) (hmL : net.MetersKnown mL) {x : Session}
    (hx : ∀ u < net.users.length, x.topNum u = 0 ∨ x.topNum u = 1) {p : ℕ × β}
    (hp : p.1 < net.users.length)
    (hplaced : ∀ s < net.switches,
      Placed net.maxNumOfFlowsPerUser (2 * net.nou) (x.controller.now s)) :
    Switched net [p.1] x (net.turnUser rate mL x p) ∧
      (net.turnUser rate mL x p).topNum p.1 = 1 - x.topNum p.1 ∧
      ∀ s < net.switches, ((net.turnUser rate mL x p).controller.now s).meters.get
        (meterNum p.1 (1 - x.topNum p.1).toNat) = some ⟨rate p.2, 100, rate p.2, 1000⟩ := by
  have ht := otherTopology_mem (hx p.1 hp)
  have hnew : ∀ s < net.switches, mL p.1 (1 - x.topNum p.1).toNat s =
      meterNum p.1 (1 - x.topNum p.1).toNat := hmL p.1 (lt_nou hp) _ (toNat_lt_two ht)
  have hold : ∀ s < net.switches, mL p.1 (x.topNum p.1).toNat s =
      meterNum p.1 (x.topNum p.1).toNat := hmL p.1 (lt_nou hp) _ (toNat_lt_two (hx p.1 hp))
  have hcontroller : (net.turnUser rate mL x p).controller = (List.range net.switches).foldl
      (net.turnSwitch rate (mL p.1 (1 - x.topNum p.1).toNat) (mL p.1 (x.topNum p.1).toNat) p.2)
      x.controller := by
    rw [turnUser]
    simp only [update_self]
    rw [otherTopology_eq (hx p.1 hp), Int.sub_sub_self]
  have hturned : Turned (List.range net.switches) (mL p.1 (1 - x.topNum p.1).toNat)
      (mL p.1 (x.topNum p.1).toNat) (rate p.2) x.controller
      (net.turnUser rate mL x p).controller := by
    rw [hcontroller]
    refine turnSwitches_spec (2 * net.nou) (fun s hs ↦ ?_)
    rw [List.mem_range] at hs
    rw [hnew s hs, hold s hs]
    exact ⟨hplaced s hs, meterNum_lt hp (toNat_lt_two ht), meterNum_lt hp (toNat_lt_two (hx p.1 hp))⟩
  have htopNum : (net.turnUser rate mL x p).topNum p.1 = 1 - x.topNum p.1 :=
    (update_self _ _ _).trans (otherTopology_eq (hx p.1 hp))
  refine ⟨⟨turnUser_topNum_mem hx p, ?_, ?_, hturned.kept, ?_⟩, htopNum, ?_⟩
  · intro u hu
    exact update_of_ne (fun h ↦ hu (List.mem_singleton.mpr h)) _ _
  · refine hturned.within.mono (fun _ _ ↦ SameOutside.mono ?_)
    rintro s m ⟨hs, hm⟩
    rw [List.mem_range] at hs
    rw [hnew s hs, hold s hs] at hm
    rcases hm with rfl | rfl
    · exact ⟨hs, p.1, List.mem_singleton_self _, _, toNat_lt_two ht, rfl⟩
    · exact ⟨hs, p.1, List.mem_singleton_self _, _, toNat_lt_two (hx p.1 hp), rfl⟩
  · intro u hu t ht' s hs
    rw [List.mem_singleton.mp hu]
    have hbare := hturned.bare s (List.mem_range.mpr hs)
    rw [hnew s hs, hold s hs] at hbare
    rcases topology_cases (hx p.1 hp) ht' with h | h
    · exact h ▸ hbare.2
    · exact h ▸ hbare.1
  · intro s hs
    have hrate := hturned.rate s (List.mem_range.mpr hs)
    rwa [hnew s hs] at hrate

theorem Switched.trans {us vs : List ℕ} {x y z : Session} (h : Switched net us x y)
    (h' : Switched net vs y z) : Switched net (us ++ vs) x z := by
  refine ⟨h'.topology, ?_, ?_, fun i id f hf ↦ h.kept i id f (h'.kept i id f hf), ?_⟩
  · intro u hu
    rw [List.mem_append, not_or] at hu
    exact (h'.others u hu.2).trans (h.others u hu.1)
  · have hus := h.within.mono (fun _ _ ↦
      SameOutside.mono (fun _ _ ↦ metersOf_mono (List.subset_append_left us vs)))
    have hvs := h'.within.mono (fun _ _ ↦
      SameOutside.mono (fun _ _ ↦ metersOf_mono (List.subset_append_right us vs)))
    exact hus.trans SameOutside.trans hvs
  · intro u hu t ht s hs
    rcases List.mem_append.mp hu with hu | hu
    · exact (h.bare u hu t ht s hs).of_kept (h'.kept s)
    · exact h'.bare u hu t ht s hs

/-- The whole main loop: every user found has lost his flows in both topologies. -/
theorem turnUsers_switched (rate : β → ℤ) (hmL : net.MetersKnown mL) {ps : List (ℕ × β)} {x : Session}
    (hx : ∀ u < net.users.length, x.topNum u = 0 ∨ x.topNum u = 1)
    (hps : ∀ p ∈ ps, p.1 < net.users.length)
    (hplaced : ∀ s < net.switches,
      Placed net.maxNumOfFlowsPerUser (2 * net.nou) (x.controller.now s)) :
    Switched net (ps.map Prod.fst) x (ps.foldl (net.turnUser rate mL) x) := by
  induction ps generalizing x with
  | nil =>
    exact ⟨hx, fun _ _ ↦ rfl, .refl (SameOutside.refl _) _, fun _ _ _ h ↦ h, List.forall_mem_nil _⟩
  | cons p ps ih =>
    have hhead := (turnUser_switched rate hmL hx (hps p List.mem_cons_self) hplaced).1
    refine hhead.trans (ih hhead.topology (fun q hq ↦ hps q (List.mem_cons_of_mem _ hq)) ?_)
    exact fun s hs ↦ (hplaced s hs).of_kept (hhead.kept s)

/-- A user who is found once is switched to his other topology, whose meters get the rate. -/
theorem turnUsers_selected (rate : β → ℤ) (hmL : net.MetersKnown mL) {ps : List (ℕ × β)} {x : Session}
    (hx : ∀ u < net.users.length, x.topNum u = 0 ∨ x.topNum u = 1)
    (hps : ∀ p ∈ ps, p.1 < net.users.length) (hnodup : (ps.map Prod.fst).Nodup)
    (hplaced : ∀ s < net.switches,
      Placed net.maxNumOfFlowsPerUser (2 * net.nou) (x.controller.now s)) :
    ∀ p ∈ ps, (ps.foldl (net.turnUser rate mL) x).topNum p.1 = 1 - x.topNum p.1 ∧
      ∀ s < net.switches, ((ps.foldl (net.turnUser rate mL) x).controller.now s).meters.get
        (meterNum p.1 (1 - x.topNum p.1).toNat) = some ⟨rate p.2, 100, rate p.2, 1000⟩ := by
  induction ps generalizing x with
  | nil => exact List.forall_mem_nil _
  | cons p ps ih =>
    obtain ⟨hfresh, htail⟩ := List.nodup_cons.mp hnodup
    have hpt := toNat_lt_two (otherTopology_mem (hx p.1 (hps p List.mem_cons_self)))
    obtain ⟨hhead, htop, hrate⟩ :=
      turnUser_switched rate hmL hx (hps p List.mem_cons_self) hplaced
    have hps' : ∀ q ∈ ps, q.1 < net.users.length := fun q hq ↦ hps q (List.mem_cons_of_mem _ hq)
    have hplaced' : ∀ s < net.switches, Placed net.maxNumOfFlowsPerUser (2 * net.nou)
        ((net.turnUser rate mL x p).controller.now s) :=
      fun s hs ↦ (hplaced s hs).of_kept (hhead.kept s)
    have hrest := turnUsers_switched rate hmL hhead.topology hps' hplaced'
    intro q hq
    rw [List.foldl_cons]
    rcases List.mem_cons.mp hq with rfl | hq
    · refine ⟨(hrest.others q.1 hfresh).trans htop, fun s hs ↦ ?_⟩
      rw [← hrest.within.now.meters s _ (not_metersOf hfresh hpt s)]
      exact hrate s hs
    · have hne : q.1 ∉ [p.1] := by
        intro h
        exact hfresh (List.mem_singleton.mp h ▸ List.mem_map_of_mem hq)
      have hih := ih hhead.topology hps' htail hplaced' q hq
      rwa [hhead.others q.1 hne] at hih

theorem markUser_mods {x : Session} (hx : x.Sized net) (u : ℕ) :
    (net.markUser u x).Sized net ∧
      (net.markUser u x).mods = x.mods.set u (net.users.getD u noUser) := by
  rw [markUser]
  by_cases hu : u < net.b1U.length
  · rw [if_pos hu]
    refine ⟨⟨by rw [List.length_set]; exact hx.1, hx.2⟩, ?_⟩
    rw [Session.mods, Session.mods, List.set_append_left _ _ (by rw [hx.1]; exact hu)]
  · rw [if_neg hu]
    refine ⟨⟨hx.1, by rw [List.length_set]; exact hx.2⟩, ?_⟩
    rw [Session.mods, Session.mods, List.set_append_right _ _ (by rw [hx.1]; omega), hx.1]

theorem turnUsers_mods (rate : β → ℤ) (mL : ℕ → ℕ → ℕ → ℕ) {ps : List (ℕ × β)}
    (hps : ∀ p ∈ ps, p.1 < net.users.length) {x : Session} (hx : x.Sized net) :
    (ps.foldl (net.turnUser rate mL) x).Sized net ∧
      ∀ v, (ps.foldl (net.turnUser rate mL) x).mods[v]? =
        if v ∈ ps.map Prod.fst then net.users[v]? else x.mods[v]? := by
  induction ps generalizing x with
  | nil => exact ⟨hx, fun v ↦ (if_neg List.not_mem_nil).symm⟩
  | cons p ps ih =>
    have hp := hps p List.mem_cons_self
    obtain ⟨hsized, hmods⟩ := markUser_mods hx p.1
    obtain ⟨hrest, hget⟩ := ih (fun q hq ↦ hps q (List.mem_cons_of_mem _ hq))
      (x := net.turnUser rate mL x p) hsized
    refine ⟨hrest, fun v ↦ ?_⟩
    rw [List.foldl_cons, hget, List.map_cons]
    by_cases hv : v ∈ ps.map Prod.fst
    · rw [if_pos hv, if_pos (List.mem_cons_of_mem _ hv)]
    · have hlen : x.mods.length = net.users.length := by
        rw [Session.mods, users, List.length_append, List.length_append, hx.1, hx.2]
      have hturn : (net.turnUser rate mL x p).mods = (net.markUser p.1 x).mods := rfl
      rw [if_neg hv, hturn, hmods, List.getElem?_set]
      by_cases hpv : p.1 = v
      · subst hpv
        rw [if_pos rfl, if_pos (by rw [hlen]; exact hp), if_pos List.mem_cons_self,
          List.getD_eq_getElem?_getD, List.getElem?_eq_getElem hp, Option.getD_some]
      · have hv' : v ∉ p.1 :: ps.map Prod.fst := by
          rw [List.mem_cons, not_or]
          exact ⟨Ne.symm hpv, hv⟩
        rw [if_neg hpv, if_neg hv']

theorem turnUsers_found (net : Network) (rate : β → ℤ) (mL : ℕ → ℕ → ℕ → ℕ) (ps : List (ℕ × β))
    (x : Session) : (ps.foldl (net.turnUser rate mL) x).found = (x.found || !ps.isEmpty) := by
  induction ps generalizing x with
  | nil => simp
  | cons p ps ih =>
    rw [List.foldl_cons, ih]
    simp [turnUser]

end Network

end EdgeSlice.Sdn
