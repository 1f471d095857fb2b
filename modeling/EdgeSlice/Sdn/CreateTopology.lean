import EdgeSlice.Sdn.UserFlows

namespace EdgeSlice.Sdn

open Function

namespace Network

variable (net : Network) (mL : ℕ → ℕ → ℕ → ℕ) (topNum : ℕ → ℤ)

/-- `create_topology` for one entry of the lists of users, taken as one list. -/
def addUser (c : Controller) (x : Address × ℕ) : Controller :=
  if x.1 ≠ noUser then
    c.addFlows net.maxNumOfFlowsPerUser
      (net.ipv4Flows (net.pathsOf x.2) x.1 (mL x.2 (topNum x.2).toNat))
  else c

variable {net mL topNum}

theorem createUsers_eq {b1U b2U : List Address} (h : b1U.length = net.b1U.length) (c : Controller) :
    net.createUsers b2Paths b1U.length b2U mL topNum (net.createUsers b1Paths 0 b1U mL topNum c) =
      (b1U ++ b2U).zipIdx.foldl (net.addUser mL topNum) c := by
  have hb1 : net.createUsers b1Paths 0 b1U mL topNum c = b1U.zipIdx.foldl (net.addUser mL topNum) c := by
    refine List.foldl_ext _ _ _ (fun c' x hx ↦ ?_)
    have hlt : x.2 < net.b1U.length := by
      have := List.snd_lt_of_mem_zipIdx hx
      omega
    rw [addUser, pathsOf, if_pos hlt]
    simp only [Nat.zero_add]
  have hb2 : ∀ c, net.createUsers b2Paths b1U.length b2U mL topNum c =
      (b2U.zipIdx b1U.length).foldl (net.addUser mL topNum) c := by
    intro c
    rw [← Nat.add_zero b1U.length, ← List.map_snd_add_zipIdx_eq_zipIdx, List.foldl_map, Nat.add_zero]
    refine List.foldl_ext _ _ _ (fun c' x _ ↦ ?_)
    have hge : ¬ x.2 + b1U.length < net.b1U.length := by omega
    rw [addUser]
    simp only [Prod.map_fst, Prod.map_snd, id_eq]
    rw [pathsOf, if_neg hge]
    simp only [Nat.add_comm]
  rw [hb2, hb1, List.zipIdx_append, List.foldl_append, Nat.zero_add]

/-- The users of a list of entries, those who are not named left out, with the meters they
have in their selected topologies. -/
structure Entries (net : Network) (mL : ℕ → ℕ → ℕ → ℕ) (topNum : ℕ → ℤ)
    (xs : List (Address × ℕ)) : Prop where
  user : ∀ x ∈ xs, x.1 ≠ noUser → net.users[x.2]? = some x.1
  topology : ∀ x ∈ xs, x.1 ≠ noUser → (topNum x.2).toNat < 2
  meter : ∀ x ∈ xs, x.1 ≠ noUser → ∀ s < net.switches,
    mL x.2 (topNum x.2).toNat s = meterNum x.2 (topNum x.2).toNat
  nodup : (xs.map Prod.snd).Nodup

theorem Entries.tail {x : Address × ℕ} {xs : List (Address × ℕ)}
    (h : Entries net mL topNum (x :: xs)) : Entries net mL topNum xs where
  user y hy := h.user y (List.mem_cons_of_mem _ hy)
  topology y hy := h.topology y (List.mem_cons_of_mem _ hy)
  meter y hy := h.meter y (List.mem_cons_of_mem _ hy)
  nodup := (List.nodup_cons.mp h.nodup).2

theorem addUser_eq {x : Address × ℕ} (hx : x.1 ≠ noUser)
    (hmL : ∀ s < net.switches, mL x.2 (topNum x.2).toNat s = meterNum x.2 (topNum x.2).toNat)
    (c : Controller) :
    net.addUser mL topNum c x = c.addFlows net.maxNumOfFlowsPerUser
      (net.ipv4Flows (net.pathsOf x.2) x.1 (fun _ ↦ meterNum x.2 (topNum x.2).toNat)) := by
  rw [addUser, if_pos hx, ipv4Flows_congr hmL]

theorem addUsers_within {xs : List (Address × ℕ)} (hxs : Entries net mL topNum xs)
    (c : Controller) :
    c.Within (SameOutside fun s m ↦ s < net.switches ∧
      ∃ x ∈ xs, x.1 ≠ noUser ∧ m = meterNum x.2 (topNum x.2).toNat)
      (xs.foldl (net.addUser mL topNum) c) := by
  refine .foldl (SameOutside.refl _) SameOutside.trans xs (fun c x hx ↦ ?_) c
  by_cases hname : x.1 ≠ noUser
  · rw [addUser_eq hname (hxs.meter x hx hname)]
    refine (addUser_within _ _ _ _ c).mono (fun _ _ ↦ SameOutside.mono ?_)
    rintro s m ⟨hs, rfl⟩
    exact ⟨hs, x, hx, hname, rfl⟩
  · rw [addUser, if_neg hname]
    exact .refl (SameOutside.refl _) c

theorem addUsers_same {α : Type*} (field : SwitchConfig → α)
    (hfield : ∀ g f, field (g.addFlow net.maxNumOfFlowsPerUser f) = field g)
    (xs : List (Address × ℕ)) (c : Controller) (s : ℕ) :
    field ((xs.foldl (net.addUser mL topNum) c).now s) = field (c.now s) := by
  refine List.foldlRecOn xs (net.addUser mL topNum)
    (motive := fun d : Controller ↦ field (d.now s) = field (c.now s)) rfl (fun d hd x _ ↦ ?_)
  rw [addUser]
  split
  · rw [Controller.addFlows_same field hfield, hd]
  · exact hd

/-- Users whose new meters have no flows get all of theirs. -/
theorem addUsers_spec {xs : List (Address × ℕ)} (hxs : Entries net mL topNum xs) {c : Controller}
    {s : ℕ} (hc : net.Tidy (c.now s))
    (hbare : ∀ x ∈ xs, x.1 ≠ noUser → Bare (c.now s) (meterNum x.2 (topNum x.2).toNat)) :
    net.Tidy ((xs.foldl (net.addUser mL topNum) c).now s) ∧
      ∀ x ∈ xs, x.1 ≠ noUser →
        Filled net.maxNumOfFlowsPerUser ((xs.foldl (net.addUser mL topNum) c).now s)
          (meterNum x.2 (topNum x.2).toNat) (net.flowsOn x.2 (topNum x.2).toNat x.1 s) := by
  induction xs generalizing c with
  | nil => exact ⟨hc, List.forall_mem_nil _⟩
  | cons x xs ih =>
    rw [List.foldl_cons]
    obtain ⟨hhead, htail⟩ := List.nodup_cons.mp hxs.nodup
    have hother : ∀ y ∈ xs, y.1 ≠ noUser → ∀ (t : ℕ), t < 2 →
        meterNum y.2 (topNum y.2).toNat ≠ meterNum x.2 t := by
      intro y hy hyname t ht hm
      have hyx := (meterNum_inj (hxs.topology y (List.mem_cons_of_mem _ hy) hyname) ht hm).1
      exact hhead (hyx ▸ List.mem_map_of_mem hy)
    by_cases hname : x.1 ≠ noUser
    · have ht := hxs.topology x List.mem_cons_self hname
      have hwithin := addUser_within net x.2 (topNum x.2).toNat x.1 c
      obtain ⟨hc', hfilled⟩ := addUser_spec (hxs.user x List.mem_cons_self hname) ht hc
        (hbare x List.mem_cons_self hname)
      rw [← addUser_eq hname (hxs.meter x List.mem_cons_self hname)] at hwithin hc' hfilled
      have hbare' : ∀ y ∈ xs, y.1 ≠ noUser →
          Bare ((net.addUser mL topNum c x).now s) (meterNum y.2 (topNum y.2).toNat) := by
        intro y hy hyname
        rw [hwithin.now.bare (fun h ↦ hother y hy hyname _ ht h.2)]
        exact hbare y (List.mem_cons_of_mem _ hy) hyname
      obtain ⟨htidy, hrest⟩ := ih hxs.tail hc' hbare'
      refine ⟨htidy, fun y hy hyname ↦ ?_⟩
      rcases List.mem_cons.mp hy with rfl | hy
      · refine (addUsers_within hxs.tail _).now.filled ?_ hfilled
        rintro ⟨-, z, hz, hzname, hm⟩
        exact hother z hz hzname _ ht hm.symm
      · exact hrest y hy hyname
    · rw [addUser, if_neg hname]
      obtain ⟨htidy, hrest⟩ := ih hxs.tail hc
        (fun y hy hyname ↦ hbare y (List.mem_cons_of_mem _ hy) hyname)
      refine ⟨htidy, fun y hy hyname ↦ ?_⟩
      rcases List.mem_cons.mp hy with rfl | hy
      · exact absurd hyname hname
      · exact hrest y hy hyname

/-- The switch has ARP flows only. -/
def ArpOnly (net : Network) (g : SwitchConfig) : Prop :=
  ∀ id f, g.flows.get id = some f → f.meter = 2 * net.nou ∧ f.type = .arp ∧
    1 + net.maxNumOfFlowsPerUser * (2 * net.nou - 1) ≤ id

theorem ArpOnly.tidy {g : SwitchConfig} (h : ArpOnly net g) : net.Tidy g := by
  have hnou : 1 ≤ 2 * net.nou := by
    rw [nou]
    omega
  refine ⟨fun id f hf ↦ ?_, fun id f hf ↦ .inr ⟨(h id f hf).1, (h id f hf).2.1⟩⟩
  obtain ⟨hm, -, hlow⟩ := h id f hf
  rw [hm]
  exact ⟨hnou, le_rfl, hlow, fun hlt ↦ absurd hlt (lt_irrefl _)⟩

theorem ArpOnly.bare {g : SwitchConfig} (h : ArpOnly net g) {u t : ℕ} (hu : u < net.users.length)
    (ht : t < 2) : Bare g (meterNum u t) := by
  intro id f hf hm
  have hlt := meterNum_lt hu ht
  rw [← hm, (h id f hf).1] at hlt
  exact lt_irrefl _ hlt

theorem addArp_arpOnly {meter : ℕ → ℕ} {g : Suggestion}
    (hmeter : meter g.first.switch = 2 * net.nou) {c : Controller} {s : ℕ}
    (hc : ArpOnly net (c.now s)) : ArpOnly net ((net.addArp meter c g).now s) := by
  have hgroup : ∀ c' : Controller, (c'.now s).flows = (c.now s).flows →
      ArpOnly net ((c'.addFlowWithMeter net.maxNumOfFlowsPerUser g.first.switch
        ⟨.arp, g.first.inPort, meter g.first.switch, g.action,
          if 0 < g.group then 90 else 91⟩).now s) := by
    intro c' hflows id f hf
    rw [Controller.addFlowWithMeter, Controller.request_now] at hf
    by_cases hs : s = g.first.switch
    · subst hs
      rw [update_self] at hf
      by_cases hid : id = (c'.now g.first.switch).flows.firstFree
          (1 + net.maxNumOfFlowsPerUser * (meter g.first.switch - 1))
      · have hnew := (IdTable.put_get_self _ _ _).symm.trans (hid ▸ hf)
        obtain rfl := Option.some.inj hnew
        refine ⟨hmeter, rfl, ?_⟩
        rw [hid, ← hmeter]
        exact IdTable.le_firstFree _ _
      · have hold := (IdTable.put_get_of_ne _ _ hid).symm.trans hf
        rw [hflows] at hold
        exact hc id f hold
    · rw [update_of_ne hs, hflows] at hf
      exact hc id f hf
  refine hgroup _ ?_
  by_cases hpos : 0 < g.group
  · rw [if_pos hpos]
    exact Controller.request_same (·.flows) (·.putGroup g.group g.outputs) (fun _ ↦ rfl) c _ s
  · rw [if_neg hpos]

theorem createTopology_eq (htop : topNum net.users.length = 0) (c : Controller) :
    net.createTopology net.b1U net.b2U mL topNum c =
      (net.users.zipIdx.foldl (net.addUser mL (update topNum net.users.length (-1)))
        (net.sugList.foldl (net.addArp (mL net.users.length 1)) c),
        update topNum net.users.length (-1)) := by
  have huIndex : net.b1U.length + net.b2U.length = net.users.length := (List.length_append).symm
  rw [createTopology]
  simp only [huIndex]
  rw [if_pos htop, createUsers_eq rfl, users]

theorem addArp_groups (meter : ℕ → ℕ) (c : Controller) (g : Suggestion) (s : ℕ) :
    ((net.addArp meter c g).now s).groups =
      if s = g.first.switch ∧ 0 < g.group then
        update (c.now s).groups g.group (some g.outputs)
      else (c.now s).groups := by
  have hflow : ∀ (c' : Controller) (f : Flow),
      ((c'.addFlowWithMeter net.maxNumOfFlowsPerUser g.first.switch f).now s).groups =
        (c'.now s).groups :=
    fun c' f ↦ Controller.request_same (·.groups) (·.addFlow _ f) (fun _ ↦ rfl) c' _ s
  rw [addArp, hflow]
  by_cases hpos : 0 < g.group
  · rw [if_pos hpos, Controller.request_now]
    by_cases hs : s = g.first.switch
    · rw [if_pos ⟨hs, hpos⟩, hs, update_self]
      rfl
    · rw [if_neg (fun h ↦ hs h.1), update_of_ne hs]
  · rw [if_neg hpos, if_neg (fun h ↦ hpos h.2)]

/-- Groups with different numbers are all there when the loop ends. -/
theorem addArps_groups (net : Network) (meter : ℕ → ℕ) {gs : List Suggestion}
    (hgs : gs.Pairwise fun g h ↦
      g.first.switch = h.first.switch → 0 < h.group → g.group ≠ h.group) (c : Controller) :
    (∀ g ∈ gs, 0 < g.group →
      ((gs.foldl (net.addArp meter) c).now g.first.switch).groups g.group = some g.outputs) ∧
      ∀ s k, (∀ g ∈ gs, g.first.switch = s → 0 < g.group → g.group ≠ k) →
        ((gs.foldl (net.addArp meter) c).now s).groups k = (c.now s).groups k := by
  induction gs generalizing c with
  | nil => exact ⟨List.forall_mem_nil _, fun _ _ _ ↦ rfl⟩
  | cons g gs ih =>
    obtain ⟨hhead, htail⟩ := List.pairwise_cons.mp hgs
    obtain ⟨hready, hkeep⟩ := ih htail (net.addArp meter c g)
    rw [List.foldl_cons]
    refine ⟨fun h hh hpos ↦ ?_, fun s k hk ↦ ?_⟩
    · rcases List.mem_cons.mp hh with rfl | hh
      · rw [hkeep _ _ (fun h' hh' hs hpos' ↦ (hhead h' hh' hs.symm hpos').symm), addArp_groups,
          if_pos ⟨rfl, hpos⟩, update_self]
      · exact hready h hh hpos
    · rw [hkeep s k (fun h hh ↦ hk h (List.mem_cons_of_mem _ hh)), addArp_groups]
      by_cases hs : s = g.first.switch ∧ 0 < g.group
      · rw [if_pos hs, update_of_ne (hk g List.mem_cons_self hs.1.symm hs.2).symm]
      · rw [if_neg hs]

end Network

end EdgeSlice.Sdn
