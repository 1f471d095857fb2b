import EdgeSlice.Sdn.Connectivity

namespace EdgeSlice.Sdn

namespace Network

variable {β : Type*} {net : Network} {rate : β → ℤ} {st : State}

/-- Before, between and after the requests of a run every named user has all of his flows
in one of the topologies. -/
def MakeBeforeBreak (net : Network) (rate : β → ℤ) (req : Request β) (st : State) : Prop :=
  ∀ d ∈ (net.multipleSwitchTest rate req st).1.visited, ∀ p ∈ req, ∀ u,
    net.users[u]? = some p.1 → ∃ t < 2, net.Complete st.mL d u t

/-- The run deletes the flows that the user `u` has on the switch `s`: he is found before
an unknown name or, with too many users, first and on the first switch. -/
def Cut (net : Network) (req : Request β) (u s : ℕ) : Prop :=
  if net.flowRows = 0 then s = 0 ∧ ((net.found req).head?.map Prod.fst) = some u
  else u ∈ (net.found req).map Prod.fst

/-- The meters of the users on the switches where the run deletes flows. -/
def cutMeters (net : Network) (req : Request β) (s m : ℕ) : Prop :=
  s < net.switches ∧ ∃ u, net.Cut req u s ∧ ∃ t < 2, m = meterNum u t

theorem start_visited {d e : Datastore} (h : d ∈ (Traced.start e).visited) : d = e :=
  List.mem_singleton.mp h

theorem visited_sameOutside (hst : net.Known st) (rate : β → ℤ) (req : Request β) :
    ∀ d ∈ (net.multipleSwitchTest rate req st).1.visited,
      SameOutside (net.cutMeters req) st.datastore d := by
  have hwithin : (Traced.start st.datastore).Within (SameOutside (net.cutMeters req))
      (net.multipleSwitchTest rate req st).1 := by
    by_cases hrun : net.switches = 0 ∨ 0 < net.flowRows
    · refine (multipleSwitchTest_moved hst hrun rate req).within.mono
        (fun _ _ ↦ SameOutside.mono ?_)
      rintro s m ⟨hs, u, hu, hm⟩
      refine ⟨hs, u, ?_, hm⟩
      rw [Cut, if_neg (by omega)]
      exact hu
    · cases hfound : net.found req with
      | nil =>
        rw [multipleSwitchTest_none hfound]
        exact .refl (SameOutside.refl _) _
      | cons p ps =>
        have hp : p.1 < net.users.length := found_lt req p (by rw [hfound]; exact List.mem_cons_self)
        have htop := hst.topology p.1 hp
        have hmeters := hst.meters p.1 (lt_nou hp)
        rw [multipleSwitchTest_error hst (by omega) (by omega) hfound rfl]
        refine (turnSwitch_within _ 0).mono (fun _ _ ↦ SameOutside.mono ?_)
        rintro s m ⟨rfl, hm⟩
        have hcut : net.Cut req p.1 0 := by
          rw [Cut, if_pos (by omega), hfound]
          exact ⟨rfl, rfl⟩
        have hn : 0 < net.switches := by omega
        rw [hmeters _ (toNat_lt_two (otherTopology_mem htop)) 0 hn,
          hmeters _ (toNat_lt_two htop) 0 hn] at hm
        rcases hm with rfl | rfl
        · exact ⟨hn, p.1, hcut, _, toNat_lt_two (otherTopology_mem htop), rfl⟩
        · exact ⟨hn, p.1, hcut, _, toNat_lt_two htop, rfl⟩
  intro d hd
  rcases hwithin.passed d hd with hd | hd
  · rw [start_visited hd]
    exact .refl _ _
  · exact hd

/-- There is a moment at which these users have no flows there in either topology. -/
theorem exists_visited_bare (hst : net.Known st) (rate : β → ℤ) (req : Request β) :
    ∃ d ∈ (net.multipleSwitchTest rate req st).1.visited, ∀ u, ∀ s < net.switches,
      net.Cut req u s → ∀ t < 2, Bare (d s) (meterNum u t) := by
  by_cases hrows : net.flowRows = 0
  · by_cases hn : net.switches = 0
    · refine ⟨_, (net.multipleSwitchTest rate req st).1.now_mem, fun u s hs ↦ ?_⟩
      omega
    · cases hfound : net.found req with
      | nil =>
        refine ⟨_, (net.multipleSwitchTest rate req st).1.now_mem, fun u s _ hcut ↦ ?_⟩
        rw [Cut, if_pos hrows, hfound] at hcut
        cases hcut.2
      | cons p ps =>
        have hp : p.1 < net.users.length := found_lt req p (by rw [hfound]; exact List.mem_cons_self)
        have htop := hst.topology p.1 hp
        have hmeters := hst.meters p.1 (lt_nou hp)
        rw [multipleSwitchTest_error hst (by omega) hrows hfound rfl]
        refine ⟨_, Traced.now_mem _, fun u s hs hcut t ht ↦ ?_⟩
        rw [Cut, if_pos hrows, hfound] at hcut
        obtain ⟨rfl, hup⟩ := hcut
        obtain rfl : p.1 = u := Option.some.inj hup
        have hnew := hmeters _ (toNat_lt_two (otherTopology_mem htop)) 0 hs
        have hold := hmeters _ (toNat_lt_two htop) 0 hs
        have hbare := turnSwitch_bare rate p.2 (c := Traced.start st.datastore)
          (hst.tidy 0 hs).placed
          (hnew ▸ meterNum_lt hp (toNat_lt_two (otherTopology_mem htop)))
          (hold ▸ meterNum_lt hp (toNat_lt_two htop))
        rw [hnew, hold] at hbare
        rcases topology_cases htop ht with rfl | rfl
        · exact hbare.2
        · exact hbare.1
  · by_cases hfound : net.found req = []
    · refine ⟨_, (net.multipleSwitchTest rate req st).1.now_mem, fun u s _ hcut ↦ ?_⟩
      rw [Cut, if_neg hrows, hfound] at hcut
      cases hcut
    · have hadd := addUsers_within (switched_entries hst rate req)
        (net.switched rate req st).controller
      rw [multipleSwitchTest_eq hst (by omega) hfound rfl rfl]
      refine ⟨_, hadd.visited (net.switched rate req st).controller.now_mem,
        fun u s hs hcut t ht ↦ ?_⟩
      rw [Cut, if_neg hrows] at hcut
      exact (switched_switched hst rate req).bare u hcut t ht s hs

theorem Complete.of_sameOutside {mL : ℕ → ℕ → ℕ → ℕ} {T : ℕ → ℕ → Prop} {d e : Datastore}
    {u t : ℕ} (h : net.Complete mL d u t) (hde : SameOutside T d e)
    (hT : ∀ s < net.switches, net.routes (net.pathsOf u) s ≠ [] → ¬ T s (mL u t s)) :
    net.Complete mL e u t := by
  intro a ha s hs r hr
  obtain ⟨id, f, hf, hserves⟩ := h a ha s hs r hr
  refine ⟨id, f, (hde.flows s id f ?_).mp hf, hserves.type, hserves.inPort, hserves.meter, ?_⟩
  · rw [hserves.meter]
    exact hT s hs (List.ne_nil_of_mem hr)
  · have haction := hserves.action
    cases hact : f.action with
    | output port =>
      rw [hact] at haction
      exact haction
    | group id =>
      rw [hact] at haction
      obtain ⟨ports, hports, hmem⟩ := haction
      exact ⟨ports, by rw [← hde.groups s]; exact hports, hmem⟩

/-- The old flows of a user go before the new ones are there: a run keeps the named users
connected if and only if it deletes no flows of theirs. -/
theorem makeBeforeBreak_iff (hst : net.Reachable rate st)
    (hcomplete : ∀ u < net.users.length, net.Complete st.mL st.datastore u (st.topNum u).toNat)
    (req : Request β) :
    net.MakeBeforeBreak rate req st ↔
      ∀ p ∈ req, ∀ u, net.users[u]? = some p.1 → ∀ s < net.switches, net.Cut req u s →
        net.routes (net.pathsOf u) s = [] := by
  have hmeter : ∀ u < net.users.length, ∀ t < 2, ∀ s < net.switches,
      st.mL u t s = meterNum u t :=
    fun u hu ↦ hst.known.meters u (lt_nou hu)
  constructor
  · intro h p hp u hu s hs hcut
    obtain ⟨d, hd, hbare⟩ := exists_visited_bare hst.known rate req
    obtain ⟨t, ht, hd⟩ := h d hd p hp u hu
    refine List.eq_nil_iff_forall_not_mem.mpr (fun r hr ↦ ?_)
    obtain ⟨id, f, hf, hserves⟩ := hd p.1 hu s hs r hr
    refine hbare u s hs hcut t ht id f hf ?_
    rw [hserves.meter, hmeter u (List.getElem?_eq_some_iff.mp hu).1 t ht s hs]
  · intro h d hd p hp u hu
    have hlt := (List.getElem?_eq_some_iff.mp hu).1
    have ht := toNat_lt_two (hst.known.topology u hlt)
    refine ⟨(st.topNum u).toNat, ht,
      (hcomplete u hlt).of_sameOutside (visited_sameOutside hst.known rate req d hd) ?_⟩
    rintro s hs hroutes ⟨-, v, hcut, t, ht', hm⟩
    rw [hmeter u hlt _ ht s hs] at hm
    obtain rfl := (meterNum_inj ht ht' hm).1
    exact hroutes (h p hp u hu s hs hcut)

end Network

/-- The address 172.16.0.2. -/
def firstAddress : Address := ['1', '7', '2', '.', '1', '6', '.', '0', '.', '2']

/-- The address 155.0.0.36. -/
def secondAddress : Address := ['1', '5', '5', '.', '0', '.', '0', '.', '3', '6']

/-- One path over one switch, with three port pairs. -/
def onePath : List (List Hop) := [[⟨0, [(1, 4), (5, 8), (9, 12)]⟩]]

theorem onePath_lt : ∀ path ∈ onePath, ∀ hop ∈ path, hop.switch < 1 := by decide

/-- One switch, with a user at either base station. -/
def twoStations : Network where
  switches := 1
  paths := onePath
  b1U := [firstAddress]
  b2U := [secondAddress]
  switch_lt := onePath_lt
  isAddress := by decide +kernel
  nodup := by decide +kernel

theorem makeBeforeBreak_twoStations : ∃ st,
    twoStations.Reachable (fun bw : ℕ ↦ (bw : ℤ) * 8 * 1000) st ∧
      twoStations.MakeBeforeBreak (fun bw : ℕ ↦ (bw : ℤ) * 8 * 1000)
        [(secondAddress, 5)] st := by
  obtain ⟨st, hst⟩ := twoStations.exists_initNetwork (by decide +kernel) (fun _ ↦ .empty)
  have hreach : twoStations.Reachable (fun bw : ℕ ↦ (bw : ℤ) * 8 * 1000) st := .init hst
  refine ⟨st, hreach, (Network.makeBeforeBreak_iff hreach (fun u hu ↦ ?_) _).mpr ?_⟩
  · exact Network.complete_of_settled hreach.known
      (fun s hs ↦ hreach.settled (.inr (by decide +kernel)) hu hs)
  · intro p hp u hu s _ _
    obtain rfl := List.mem_singleton.mp hp
    have hone : twoStations.users[1]? = some secondAddress := by decide +kernel
    rw [Network.users_inj hu hone, List.eq_nil_iff_forall_not_mem]
    intro r hr
    have hpath := of_decide_eq_true (List.mem_filter.mp hr).2
    exact List.not_mem_nil hpath.1

/-- When the loop over the users ends, the first user has no flows at all. -/
theorem not_makeBeforeBreak : ¬ ∀ (net : Network) (rate : ℕ → ℤ) (st : State) (req : Request ℕ),
    net.Reachable rate st →
      (∀ u < net.users.length, net.Complete st.mL st.datastore u (st.topNum u).toNat) →
        net.MakeBeforeBreak rate req st := by
  intro h
  obtain ⟨st, hst⟩ := twoStations.exists_initNetwork (by decide +kernel) (fun _ ↦ .empty)
  have hreach : twoStations.Reachable (fun bw : ℕ ↦ (bw : ℤ) * 8 * 1000) st := .init hst
  have hbreak := h twoStations _ st [(firstAddress, 5)] hreach (fun u hu ↦
    Network.complete_of_settled hreach.known
      (fun s hs ↦ hreach.settled (.inr (by decide +kernel)) hu hs))
  obtain ⟨d, hd, hbare⟩ := Network.exists_visited_bare hreach.known
    (fun bw : ℕ ↦ (bw : ℤ) * 8 * 1000) [(firstAddress, 5)]
  have hzero : twoStations.users[0]? = some firstAddress := by decide +kernel
  obtain ⟨t, ht, hcomplete⟩ := hbreak d hd _ List.mem_cons_self 0 hzero
  have hroute : (⟨0, 1, 4, .source, 0⟩ : Route) ∈ twoStations.routes (twoStations.pathsOf 0) 0 := by
    decide +kernel
  obtain ⟨id, f, hf, hserves⟩ := hcomplete _ hzero 0 (by decide) _ hroute
  have hcut : twoStations.Cut [(firstAddress, 5)] 0 0 := by
    rw [Network.Cut, if_neg (by decide +kernel)]
    decide +kernel
  refine hbare 0 0 (by decide) hcut t ht id f hf ?_
  rw [hserves.meter, hreach.known.meters 0 (by decide +kernel) t ht 0 (by decide)]

end EdgeSlice.Sdn
