import EdgeSlice.Sdn.MakeBeforeBreak
import Mathlib.Data.List.Nodup

namespace EdgeSlice.Sdn

namespace Network

variable {β : Type*} {net : Network} {rate : β → ℤ} {st : State}

/-- What a reconfiguration has to do for the users it names, and to leave for the others. -/
structure Reconfigured (net : Network) (rate : β → ℤ) (req : Request β) (st st' : State) : Prop where
  selected : ∀ p ∈ req, ∀ u, net.users[u]? = some p.1 → st'.topNum u = 1 - st.topNum u
  flows : ∀ p ∈ req, ∀ u, net.users[u]? = some p.1 → ∀ s < net.switches,
    ServesExactly (st'.datastore s) p.1 (st'.mL u (st'.topNum u).toNat s)
      (net.routes (net.pathsOf u) s)
  rate : ∀ p ∈ req, ∀ u, net.users[u]? = some p.1 → ∀ s < net.switches, ∃ x,
    (st'.datastore s).meters.get (st'.mL u (st'.topNum u).toNat s) = some x ∧
      x.bandRate = rate p.2 ∧ x.dropRate = rate p.2
  previous : ∀ p ∈ req, ∀ u, net.users[u]? = some p.1 → ∀ s < net.switches,
    Bare (st'.datastore s) (st.mL u (st.topNum u).toNat s)
  otherMeters : ∀ v a, net.users[v]? = some a → (∀ p ∈ req, p.1 ≠ a) → ∀ s < net.switches,
    ∀ t < 2, (st'.datastore s).meters.get (st.mL v t s) = (st.datastore s).meters.get (st.mL v t s)
  otherFlows : ∀ s < net.switches, ∀ id f, (∀ p ∈ req, ∀ d, f.type ≠ .ipv4 d p.1) →
    ((st'.datastore s).flows.get id = some f ↔ (st.datastore s).flows.get id = some f)

/-- No user of the first base station before `u` has an address that contains `a`. -/
def FirstMatch (net : Network) (a : Address) (u : ℕ) : Prop :=
  ∀ i b, net.b1U[i]? = some b → a <:+: b → u ≤ i

theorem users_of_lt {u : ℕ} (hu : u < net.b1U.length) : net.users[u]? = net.b1U[u]? := by
  rw [users, List.getElem?_append_left hu]

theorem users_of_le {u : ℕ} (hu : net.b1U.length ≤ u) :
    net.users[u]? = net.b2U[u - net.b1U.length]? := by
  rw [users, List.getElem?_append_right hu]

theorem lookup_of_firstMatch {a : Address} {u : ℕ} (ha : net.users[u]? = some a)
    (h : net.FirstMatch a u) : net.lookup a = some u := by
  rw [lookup]
  by_cases hu : u < net.b1U.length
  · rw [users_of_lt hu] at ha
    have hfirst : (net.b1U.findIdx? fun b ↦ a <:+: b) = some u := by
      obtain ⟨hlt, hget⟩ := List.getElem?_eq_some_iff.mp ha
      refine List.findIdx?_eq_some_iff_getElem.mpr ⟨hlt, ?_, fun j hj hmatch ↦ ?_⟩
      · rw [hget]
        exact decide_eq_true List.infix_rfl
      · have := h j _ (List.getElem?_eq_getElem (by omega)) (of_decide_eq_true hmatch)
        omega
    rw [hfirst]
  · rw [users_of_le (by omega)] at ha
    have hnone : (net.b1U.findIdx? fun b ↦ a <:+: b) = none := by
      refine List.findIdx?_eq_none_iff.mpr (fun b hb ↦ decide_eq_false fun hmatch ↦ ?_)
      obtain ⟨i, hi, rfl⟩ := List.getElem_of_mem hb
      have := h i _ (List.getElem?_eq_getElem hi) hmatch
      omega
    have hsecond : (net.b2U.findIdx? fun b ↦ b = a) = some (u - net.b1U.length) := by
      obtain ⟨hlt, hget⟩ := List.getElem?_eq_some_iff.mp ha
      have hnodup := (List.nodup_append.mp net.nodup).2.1
      refine List.findIdx?_eq_some_iff_getElem.mpr ⟨hlt, decide_eq_true hget, fun j hj hmatch ↦ ?_⟩
      have hsame := (List.Nodup.getElem_inj_iff hnodup).mp ((of_decide_eq_true hmatch).trans hget.symm)
      omega
    rw [hnone, hsecond, Option.map_some]
    exact congrArg some (by omega)

/-- The user who is found is found by his own address too. -/
theorem firstMatch_of_lookup {name a : Address} {u : ℕ} (h : net.lookup name = some u)
    (ha : net.users[u]? = some a) : net.FirstMatch a u := by
  intro i b hb hmatch
  rw [lookup] at h
  cases hfirst : net.b1U.findIdx? fun b ↦ name <:+: b with
  | some ii =>
    rw [hfirst] at h
    cases h
    obtain ⟨hlt, hname, hbefore⟩ := List.findIdx?_eq_some_iff_getElem.mp hfirst
    rw [users_of_lt hlt, List.getElem?_eq_getElem hlt] at ha
    rw [Option.some.inj ha] at hname
    by_contra hi
    obtain ⟨hib, hget⟩ := List.getElem?_eq_some_iff.mp hb
    refine hbefore i (by omega) (decide_eq_true ?_)
    rw [hget]
    exact (of_decide_eq_true hname).trans hmatch
  | none =>
    rw [hfirst] at h
    obtain ⟨k, hk, rfl⟩ := Option.map_eq_some_iff.mp h
    obtain ⟨hlt, hname, -⟩ := List.findIdx?_eq_some_iff_getElem.mp hk
    rw [users_of_le (Nat.le_add_right _ _), Nat.add_sub_cancel_left,
      List.getElem?_eq_getElem hlt] at ha
    rw [Option.some.inj ha] at hname
    have hno := List.findIdx?_eq_none_iff.mp hfirst b (List.mem_of_getElem? hb)
    rw [← of_decide_eq_true hname] at hno
    exact absurd hmatch (of_decide_eq_false hno)

/-- Every name finds its own user. -/
def Unambiguous (net : Network) (req : Request β) : Prop :=
  ∀ p ∈ req, ∀ u, net.users[u]? = some p.1 → net.FirstMatch p.1 u

theorem found_of_unambiguous {req : Request β} (hknown : ∀ p ∈ req, p.1 ∈ net.users)
    (h : net.Unambiguous req) :
    (net.found req).map (fun q ↦ (net.users[q.1]?, q.2)) = req.map (fun p ↦ (some p.1, p.2)) := by
  induction req with
  | nil => rfl
  | cons e req ih =>
    obtain ⟨u, hu, hget⟩ := List.getElem_of_mem (hknown e List.mem_cons_self)
    have he : net.users[u]? = some e.1 := by rw [List.getElem?_eq_getElem hu, hget]
    rw [found, lookup_of_firstMatch he (h e List.mem_cons_self u he)]
    dsimp only
    rw [List.map_cons, List.map_cons, he,
      ih (fun p hp ↦ hknown p (List.mem_cons_of_mem _ hp))
        (fun p hp ↦ h p (List.mem_cons_of_mem _ hp))]

theorem mem_found_iff {req : Request β} (hknown : ∀ p ∈ req, p.1 ∈ net.users)
    (h : net.Unambiguous req) {u : ℕ} {bw : β} :
    (u, bw) ∈ net.found req ↔ ∃ a, net.users[u]? = some a ∧ (a, bw) ∈ req := by
  have hmap := found_of_unambiguous hknown h
  constructor
  · intro hq
    have hmem := List.mem_map_of_mem (f := fun q : ℕ × β ↦ (net.users[q.1]?, q.2)) hq
    rw [hmap] at hmem
    obtain ⟨⟨a, bw'⟩, hp, heq⟩ := List.mem_map.mp hmem
    obtain ⟨ha, rfl⟩ := Prod.mk.inj heq
    exact ⟨a, ha.symm, hp⟩
  · rintro ⟨a, ha, hp⟩
    have hmem := List.mem_map_of_mem (f := fun p : Address × β ↦ (some p.1, p.2)) hp
    rw [← hmap] at hmem
    obtain ⟨⟨v, bw'⟩, hq, heq⟩ := List.mem_map.mp hmem
    obtain ⟨hv, rfl⟩ := Prod.mk.inj heq
    rwa [users_inj ha hv]

theorem found_nodup {req : Request β} (hknown : ∀ p ∈ req, p.1 ∈ net.users)
    (h : net.Unambiguous req) (hnodup : (req.map Prod.fst).Nodup) :
    ((net.found req).map Prod.fst).Nodup := by
  have hmap := congrArg (List.map Prod.fst) (found_of_unambiguous hknown h)
  rw [List.map_map, List.map_map] at hmap
  refine List.Nodup.of_map (fun u ↦ net.users[u]?) ?_
  rw [List.map_map]
  have hsome : (req.map fun p ↦ some p.1).Nodup := by
    have := hnodup.map (f := some) (fun _ _ h ↦ Option.some.inj h)
    rwa [List.map_map] at this
  exact hmap ▸ hsome

theorem not_metersOf_of_owned {us : List ℕ} (hus : ∀ u ∈ us, u < net.users.length) {f : Flow}
    (hf : net.Owned f) (hother : ∀ u ∈ us, ∀ a d, net.users[u]? = some a → f.type ≠ .ipv4 d a)
    (s : ℕ) : ¬ net.metersOf us s f.meter := by
  rintro ⟨-, u, hu, t, ht, hm⟩
  rcases hf with ⟨v, t', d, a, ha, ht', hm', htype⟩ | ⟨hm', -⟩
  · rw [hm'] at hm
    obtain rfl := (meterNum_inj ht' ht hm).1
    exact hother _ hu a d ha htype
  · have hlt := meterNum_lt (hus u hu) ht
    omega

/-- A run that finds all the named users reconfigures these and no others. -/
theorem reconfigured_of_unambiguous (hst : net.Known st)
    (hrun : net.switches = 0 ∨ 0 < net.flowRows) (rate : β → ℤ) {req : Request β}
    (hnodup : (req.map Prod.fst).Nodup) (hknown : ∀ p ∈ req, p.1 ∈ net.users)
    (h : net.Unambiguous req) :
    Reconfigured net rate req st (net.multipleSwitchTest rate req st).2 := by
  have hmoved := multipleSwitchTest_moved hst hrun rate req
  have hmL := multipleSwitchTest_mL net rate req st
  have hfound : ∀ p ∈ req, ∀ u, net.users[u]? = some p.1 → (u, p.2) ∈ net.found req :=
    fun p hp u hu ↦ (mem_found_iff hknown h).mpr ⟨p.1, hu, hp⟩
  have hnamed : ∀ u ∈ (net.found req).map Prod.fst, ∃ p ∈ req, net.users[u]? = some p.1 := by
    intro u hu
    obtain ⟨⟨v, bw⟩, hq, rfl⟩ := List.mem_map.mp hu
    obtain ⟨a, ha, hp⟩ := (mem_found_iff hknown h).mp hq
    exact ⟨(a, bw), hp, ha⟩
  have hselected := fun p (hp : p ∈ req) u (hu : net.users[u]? = some p.1) ↦
    multipleSwitchTest_selected hst hrun rate (found_nodup hknown h hnodup) (hfound p hp u hu)
  have hmeter : ∀ u a, net.users[u]? = some a → ∀ t < 2, ∀ s < net.switches,
      st.mL u t s = meterNum u t := by
    intro u a hu t ht s hs
    have hlt := (List.getElem?_eq_some_iff.mp hu).1
    exact hst.meters u (lt_nou hlt) t ht s hs
  have htopology := fun u a (hu : net.users[u]? = some a) ↦
    hst.topology u (List.getElem?_eq_some_iff.mp hu).1
  refine ⟨fun p hp u hu ↦ (hselected p hp u hu).1, ?_, ?_, ?_, ?_, ?_⟩
  · intro p hp u hu s hs
    have htop := toNat_lt_two (hmoved.known.topology u (List.getElem?_eq_some_iff.mp hu).1)
    rw [hmL, hmeter u _ hu _ htop s hs]
    exact (hmoved.settled u (List.mem_map_of_mem (hfound p hp u hu)) s hs).servesExactly
      hmoved.known hs hu
  · intro p hp u hu s hs
    obtain ⟨htop, hrate⟩ := hselected p hp u hu
    rw [hmL, htop, hmeter u _ hu _ (toNat_lt_two (otherTopology_mem (htopology u _ hu))) s hs]
    exact ⟨_, hrate s hs, rfl, rfl⟩
  · intro p hp u hu s hs
    have hbare := (hmoved.settled u (List.mem_map_of_mem (hfound p hp u hu)) s hs p.1 hu).2
    rw [(hselected p hp u hu).1, Int.sub_sub_self] at hbare
    rwa [hmeter u _ hu _ (toNat_lt_two (htopology u _ hu)) s hs]
  · intro v a hv hother s hs t ht
    have hfresh : v ∉ (net.found req).map Prod.fst := by
      intro hmem
      obtain ⟨p, hp, hvp⟩ := hnamed v hmem
      exact hother p hp (Option.some.inj (hvp.symm.trans hv))
    rw [hmeter v a hv t ht s hs, hmoved.datastore]
    exact (hmoved.within.now.meters s _ (not_metersOf hfresh ht s)).symm
  · intro s hs id f hother
    have hus : ∀ u ∈ (net.found req).map Prod.fst, u < net.users.length := by
      intro u hu
      obtain ⟨p, -, hup⟩ := hnamed u hu
      exact (List.getElem?_eq_some_iff.mp hup).1
    have houtside : net.Owned f → ¬ net.metersOf ((net.found req).map Prod.fst) s f.meter := by
      intro howned
      refine not_metersOf_of_owned hus howned (fun u hu a d ha ↦ ?_) s
      obtain ⟨p, hp, hup⟩ := hnamed u hu
      rw [Option.some.inj (ha.symm.trans hup)]
      exact hother p hp d
    rw [hmoved.datastore]
    constructor
    · intro hf
      have howned := (hmoved.known.tidy s hs).owned id f (by rw [hmoved.datastore]; exact hf)
      exact (hmoved.within.now.flows s id f (houtside howned)).mpr hf
    · intro hf
      have howned := (hst.tidy s hs).owned id f hf
      exact (hmoved.within.now.flows s id f (houtside howned)).mp hf

theorem flowRows_pos_iff : 0 < net.flowRows ↔ net.users.length ≤ 255 := by
  rw [flowRows, nou, Nat.div_pos_iff]
  omega

/-- A run selects the other topology for the users it finds only. -/
theorem topNum_of_not_found (hst : net.Known st) (rate : β → ℤ) (req : Request β) {u : ℕ}
    (hu : u ∉ (net.found req).map Prod.fst ∨ (0 < net.switches ∧ net.flowRows = 0)) :
    (net.multipleSwitchTest rate req st).2.topNum u = st.topNum u := by
  by_cases hrun : net.switches = 0 ∨ 0 < net.flowRows
  · rcases hu with hu | hu
    · exact (multipleSwitchTest_moved hst hrun rate req).others u hu
    · omega
  · cases hfound : net.found req with
    | nil => rw [multipleSwitchTest_none hfound]
    | cons p ps => rw [multipleSwitchTest_error hst (by omega) (by omega) hfound rfl]

/-- Reconfiguration is exact and isolated if and only if every name finds its own user,
where a run can take place at all. -/
theorem reconfigured_iff {req : Request β} (hst : net.Reachable rate st)
    (hnodup : (req.map Prod.fst).Nodup) (hknown : ∀ p ∈ req, p.1 ∈ net.users) :
    Reconfigured net rate req st (net.multipleSwitchTest rate req st).2 ↔
      (req = [] ∨ net.switches = 0 ∨ net.users.length ≤ 255) ∧ net.Unambiguous req := by
  have hindex : ∀ p ∈ req, ∃ u : ℕ, net.users[u]? = some p.1 := by
    intro p hp
    obtain ⟨u, hu, hget⟩ := List.getElem_of_mem (hknown p hp)
    exact ⟨u, by rw [List.getElem?_eq_getElem hu, hget]⟩
  constructor
  · intro h
    have hchanged : ∀ p ∈ req, ∀ u, net.users[u]? = some p.1 →
        u ∈ (net.found req).map Prod.fst ∧ (net.switches = 0 ∨ 0 < net.flowRows) := by
      intro p hp u hu
      by_contra hnot
      have hsame := topNum_of_not_found hst.known rate req (u := u)
        ((not_and_or.mp hnot).imp id (fun hrun ↦ by omega))
      have hother := h.selected p hp u hu
      have htop := hst.known.topology u (List.getElem?_eq_some_iff.mp hu).1
      omega
    refine ⟨?_, fun p hp u hu ↦ ?_⟩
    · cases req with
      | nil => exact .inl rfl
      | cons p req =>
        obtain ⟨u, hu⟩ := hindex p List.mem_cons_self
        rw [← flowRows_pos_iff]
        exact .inr (hchanged p List.mem_cons_self u hu).2
    · obtain ⟨q, hq, rfl⟩ := List.mem_map.mp (hchanged p hp u hu).1
      obtain ⟨e, -, hlookup⟩ := lookup_of_mem_found hq
      exact firstMatch_of_lookup hlookup hu
  · rintro ⟨hrun, h⟩
    rw [← flowRows_pos_iff] at hrun
    rcases hrun with rfl | hrun
    · rw [multipleSwitchTest_none rfl]
      exact ⟨List.forall_mem_nil _, List.forall_mem_nil _, List.forall_mem_nil _,
        List.forall_mem_nil _, fun _ _ _ _ _ _ _ _ ↦ rfl, fun _ _ _ _ _ ↦ Iff.rfl⟩
    · exact reconfigured_of_unambiguous hst.known hrun rate hnodup hknown h

end Network

/-- The address 172.16.0.20. -/
def longAddress : Address := ['1', '7', '2', '.', '1', '6', '.', '0', '.', '2', '0']

/-- One switch, and two users of whom the first has an address that begins with the other's. -/
def twoUsers : Network where
  switches := 1
  paths := onePath
  b1U := [longAddress, firstAddress]
  b2U := []
  switch_lt := onePath_lt
  isAddress := by decide +kernel
  nodup := by decide +kernel

theorem reconfigured_twoUsers : ∃ st, twoUsers.Reachable (fun bw : ℕ ↦ (bw : ℤ) * 8 * 1000) st ∧
    twoUsers.Reconfigured (fun bw : ℕ ↦ (bw : ℤ) * 8 * 1000) [(longAddress, 5)] st
      (twoUsers.multipleSwitchTest (fun bw : ℕ ↦ (bw : ℤ) * 8 * 1000)
        [(longAddress, 5)] st).2 := by
  obtain ⟨st, hst⟩ := twoUsers.exists_initNetwork (by decide +kernel) (fun _ ↦ .empty)
  refine ⟨st, .init hst, (Network.reconfigured_iff (.init hst) (by decide +kernel)
    (by decide +kernel)).mpr ⟨.inr (.inr (by decide +kernel)), ?_⟩⟩
  intro p hp u hu i b _ _
  obtain rfl := List.mem_singleton.mp hp
  have hzero : twoUsers.users[0]? = some longAddress := by decide +kernel
  rw [Network.users_inj hu hzero]
  exact Nat.zero_le i

/-- A request for the second user selects the other topology for the first. -/
theorem not_reconfigured : ¬ ∀ (net : Network) (rate : ℕ → ℤ) (st : State) (req : Request ℕ),
    net.Reachable rate st → (req.map Prod.fst).Nodup → (∀ p ∈ req, p.1 ∈ net.users) →
      net.Reconfigured rate req st (net.multipleSwitchTest rate req st).2 := by
  intro h
  obtain ⟨st, hst⟩ := twoUsers.exists_initNetwork (by decide +kernel) (fun _ ↦ .empty)
  have hreach : twoUsers.Reachable (fun bw : ℕ ↦ (bw : ℤ) * 8 * 1000) st := .init hst
  have hone : twoUsers.users[1]? = some firstAddress := by decide +kernel
  have hother := (h twoUsers _ st [(firstAddress, 5)] hreach (by decide +kernel)
    (by decide +kernel)).selected _ List.mem_cons_self 1 hone
  have hfound : 1 ∉ (twoUsers.found [(firstAddress, 5)]).map Prod.fst := by decide +kernel
  have hsame := Network.topNum_of_not_found hreach.known (fun bw : ℕ ↦ (bw : ℤ) * 8 * 1000)
    [(firstAddress, 5)] (.inl hfound)
  have htop := hreach.known.topology 1 (by decide +kernel)
  omega

end EdgeSlice.Sdn
