import EdgeSlice.Gtpv1u.TunnelTables
import EdgeSlice.Common.HashTable
import EdgeSlice.Fold
import EdgeSlice.GuardedRun
import Mathlib.Data.Finset.Card
import Mathlib.Data.Finset.Union

namespace EdgeSlice.Gtpv1u

open Common Function

variable {s s' : Tables} {rnti p ebi t : ℕ} {endpoint : ℕ × ℕ} {tunnel : Tunnel} {resp resp' : CreateTunnelResp}
  {q : ℕ × ℕ} {destroyed destroyed' : List ℕ}

namespace Tables

/-- The entry of a UE. -/
def ueOf (s : Tables) (rnti : ℕ) : Option UeData := (s.ueMapping.get rnti).join.bind s.ues

/-- The UE and the bearer of a TEID. -/
def ownerOf (s : Tables) (t : ℕ) : Option (ℕ × ℕ) :=
  (s.teidMapping.get t).join.map fun d ↦ (d.ueId, d.epsBearerId)

/-- The TEID of a bearer, zero if the UE has no entry. -/
def teidOf (s : Tables) (rnti ebi : ℕ) : ℕ :=
  ((s.ueOf rnti).map fun ue ↦ (ue.bearers (ebi - bearerOffset)).teidENB).getD 0

/-- The tables hold what they should: each UE has an entry of its own. -/
structure Held (s : Tables) : Prop where
  ueMapping : s.ueMapping.Chained s.ueMapping.get
  teidMapping : s.teidMapping.Chained s.teidMapping.get
  entry : ∀ k d, s.ueMapping.get k = some d → ∃ p ue, d = some p ∧ p < s.nextUe ∧ s.ues p = some ue
  inj : ∀ k k' p, s.ueMapping.get k = some (some p) → s.ueMapping.get k' = some (some p) → k = k'
  teid : ∀ t d, s.teidMapping.get t = some d → ∃ q : ℕ × ℕ, d = some ⟨0, q.1, q.2⟩

theorem Held.init (counter counter' addr : ℕ) : (init counter counter' addr).Held where
  ueMapping := .create (by decide) counter id
  teidMapping := .create (by decide) counter' id
  entry k d h := by cases h
  inj k k' p h := by cases h
  teid t d h := by cases h

namespace Held

theorem ueOf_of_get (hget : s.ueMapping.get rnti = some (some p)) : s.ueOf rnti = s.ues p := by
  rw [ueOf, hget]
  rfl

theorem ueOf_eq_none (h : s.Held) : s.ueOf rnti = none ↔ s.ueMapping.get rnti = none := by
  constructor
  · intro hnone
    cases hget : s.ueMapping.get rnti with
    | none => rfl
    | some d =>
      obtain ⟨p, ue, rfl, -, hue⟩ := h.entry rnti d hget
      rw [ueOf_of_get hget, hue] at hnone
      cases hnone
  · intro hget
    rw [ueOf, hget]
    rfl

theorem ownerOf_eq_none (h : s.Held) : s.ownerOf t = none ↔ s.teidMapping.get t = none := by
  constructor
  · intro hnone
    cases hget : s.teidMapping.get t with
    | none => rfl
    | some d =>
      obtain ⟨q, rfl⟩ := h.teid t d hget
      rw [ownerOf, hget] at hnone
      cases hnone
  · intro hget
    rw [ownerOf, hget]
    rfl

/-- The entry of a UE is written. -/
theorem write (h : s.Held) (hget : s.ueMapping.get rnti = some (some p)) (ue : UeData) :
    Held { s with ues := update s.ues p (some ue) } ∧
      ueOf { s with ues := update s.ues p (some ue) } = update s.ueOf rnti (some ue) := by
  refine ⟨⟨h.ueMapping, h.teidMapping, fun k d hk ↦ ?_, h.inj, h.teid⟩, funext fun k ↦ ?_⟩
  · obtain ⟨p', ue', rfl, hlt, hue⟩ := h.entry k d hk
    rcases eq_or_ne p' p with rfl | hne
    · exact ⟨p', ue, rfl, hlt, update_self ..⟩
    · exact ⟨p', ue', rfl, hlt, (update_of_ne hne ..).trans hue⟩
  · rcases eq_or_ne k rnti with rfl | hne
    · rw [update_self, ueOf, hget]
      exact update_self ..
    · rw [update_of_ne hne, ueOf, ueOf]
      cases hk : s.ueMapping.get k with
      | none => rfl
      | some d =>
        obtain ⟨p', ue', rfl, -, -⟩ := h.entry k d hk
        have hother : p' ≠ p := fun heq ↦ hne (h.inj k rnti p (heq ▸ hk) hget)
        exact update_of_ne hother ..

/-- The entry that a tunnel is put into. -/
theorem ueEntry (h : s.Held) (rnti : ℕ) : ∃ u p, s.ueEntry rnti = some (u, p) ∧ u.Held ∧
    u.ueMapping.get rnti = some (some p) ∧ u.ueOf = update s.ueOf rnti (some ((s.ueOf rnti).getD .cleared)) ∧
    u.teidMapping = s.teidMapping ∧ u.usedFreed = s.usedFreed := by
  cases hget : s.ueMapping.get rnti with
  | some d =>
    obtain ⟨p, ue, rfl, hlt, hue⟩ := h.entry rnti d hget
    refine ⟨s, p, by rw [Tables.ueEntry, hget], h, hget, ?_, rfl, rfl⟩
    have hself : s.ueOf rnti = some ue := (ueOf_of_get hget).trans hue
    rw [hself, Option.getD_some, ← hself, update_eq_self]
  | none =>
    obtain ⟨t, ht, -, -⟩ := h.ueMapping.insert_of_none hget (some s.nextUe)
    obtain ⟨hnew, hchained⟩ := h.ueMapping.get_insert rnti (some s.nextUe)
    rw [ht] at hnew hchained
    have hnone : s.ueOf rnti = none := h.ueOf_eq_none.mpr hget
    have hfresh : ∀ k p, s.ueMapping.get k = some (some p) → p ≠ s.nextUe := by
      intro k p hk
      obtain ⟨p', ue', heq, hlt, -⟩ := h.entry k _ hk
      cases heq
      exact hlt.ne
    have hget' (k : ℕ) : t.get k = update s.ueMapping.get rnti (some (some s.nextUe)) k := congrFun hnew k
    let u : Tables :=
      { s with ueMapping := t, ues := update s.ues s.nextUe (some .cleared), nextUe := s.nextUe + 1 }
    have hself : u.ueMapping.get rnti = some (some s.nextUe) := (hget' rnti).trans (update_self ..)
    have hother {k : ℕ} (hne : k ≠ rnti) : u.ueMapping.get k = s.ueMapping.get k :=
      (hget' k).trans (update_of_ne hne ..)
    refine ⟨u, s.nextUe, by rw [Tables.ueEntry, hget]; simp only [ht, ↓reduceIte, u],
      ⟨hchained, h.teidMapping, fun k d hk ↦ ?_, fun k k' p hk hk' ↦ ?_, h.teid⟩, hself, funext fun k ↦ ?_, rfl, rfl⟩
    · rcases eq_or_ne k rnti with rfl | hne
      · obtain rfl := Option.some.inj (hself.symm.trans hk)
        exact ⟨s.nextUe, .cleared, rfl, Nat.lt_succ_self _, update_self ..⟩
      · obtain ⟨p, ue, rfl, hlt, hue⟩ := h.entry k d ((hother hne).symm.trans hk)
        exact ⟨p, ue, rfl, hlt.trans (Nat.lt_succ_self _), (update_of_ne hlt.ne ..).trans hue⟩
    · have hcases (k : ℕ) (hk : u.ueMapping.get k = some (some p)) :
          k = rnti ∧ p = s.nextUe ∨ k ≠ rnti ∧ s.ueMapping.get k = some (some p) := by
        rcases eq_or_ne k rnti with rfl | hne
        · cases hself.symm.trans hk
          exact .inl ⟨rfl, rfl⟩
        · exact .inr ⟨hne, (hother hne).symm.trans hk⟩
      rcases hcases k hk with ⟨rfl, rfl⟩ | ⟨-, hold⟩ <;> rcases hcases k' hk' with ⟨rfl, heq⟩ | ⟨-, hold'⟩
      · rfl
      · exact absurd rfl (hfresh k' _ hold')
      · exact absurd heq (hfresh k p hold)
      · exact h.inj k k' p hold hold'
    · rcases eq_or_ne k rnti with rfl | hne
      · rw [update_self, ueOf_of_get hself, hnone]
        exact update_self ..
      · rw [update_of_ne hne, ueOf, ueOf, hother hne]
        cases hk : s.ueMapping.get k with
        | none => rfl
        | some d =>
          obtain ⟨p, ue, rfl, hlt, -⟩ := h.entry k d hk
          exact update_of_ne hlt.ne ..

/-- The entry of a TEID. -/
theorem teidEntry (h : s.Held) (hs' : s.teidEntry t rnti ebi resp = some (s', resp')) :
    s'.Held ∧ s'.ueMapping = s.ueMapping ∧ s'.ues = s.ues ∧ s'.usedFreed = s.usedFreed ∧
      s'.ownerOf = update s.ownerOf t (some ((s.ownerOf t).getD (rnti, ebi))) := by
  rw [Tables.teidEntry] at hs'
  cases hget : s.teidMapping.get t with
  | some d =>
    obtain ⟨q, rfl⟩ := h.teid t d hget
    rw [hget] at hs'
    cases hs'
    refine ⟨h, rfl, rfl, rfl, ?_⟩
    have hself : s.ownerOf t = some q := by
      rw [ownerOf, hget]
      rfl
    rw [hself, Option.getD_some, ← hself, update_eq_self]
  | none =>
    obtain ⟨v, hv, -, -⟩ := h.teidMapping.insert_of_none hget (some ⟨0, rnti, ebi⟩)
    obtain ⟨hnew, hchained⟩ := h.teidMapping.get_insert t (some ⟨0, rnti, ebi⟩)
    have hnone : s.ownerOf t = none := h.ownerOf_eq_none.mpr hget
    rw [hv] at hnew hchained
    rw [hget] at hs'
    simp only [hv, ↓reduceIte, Option.some.injEq, Prod.mk.injEq] at hs'
    obtain ⟨rfl, -⟩ := hs'
    have hget' (k : ℕ) : v.get k = update s.teidMapping.get t (some (some ⟨0, rnti, ebi⟩)) k := congrFun hnew k
    refine ⟨⟨h.ueMapping, hchained, h.entry, h.inj, fun k d hk ↦ ?_⟩, rfl, rfl, rfl, funext fun k ↦ ?_⟩
    · rw [hget'] at hk
      rcases eq_or_ne k t with rfl | hne
      · rw [update_self] at hk
        exact ⟨(rnti, ebi), (Option.some.inj hk).symm⟩
      · rw [update_of_ne hne] at hk
        exact h.teid k d hk
    · rw [ownerOf, hget']
      rcases eq_or_ne k t with rfl | hne
      · rw [update_self, update_self, hnone]
        rfl
      · rw [update_of_ne hne, update_of_ne hne]
        rfl

end Held

/-- What one turn of the creation does. -/
structure Created (rnti : ℕ) (endpoint : ℕ × ℕ) (tunnel : Tunnel) (s s' : Tables) : Prop where
  held : s'.Held
  hasPlace : HasPlace tunnel.epsBearerId
  ueOf_eq : s'.ueOf =
    update s.ueOf rnti (some (((s.ueOf rnti).getD .cleared).withTunnel rnti endpoint tunnel))
  ownerOf_eq : s'.ownerOf =
    update s.ownerOf endpoint.1 (some ((s.ownerOf endpoint.1).getD (rnti, tunnel.epsBearerId)))
  usedFreed_eq : s'.usedFreed = s.usedFreed

theorem Held.createTunnel (h : s.Held) (hs' : s.createTunnel rnti endpoint tunnel resp = some (s', resp')) :
    Created rnti endpoint tunnel s s' := by
  obtain ⟨u, p, hu, hheld, hget, hue, hteid, hfreed⟩ := h.ueEntry rnti
  have hself : u.ues p = some ((s.ueOf rnti).getD .cleared) := by
    rw [← ueOf_of_get hget, hue, update_self]
  rw [Tables.createTunnel, hu] at hs'
  simp only [hself] at hs'
  split_ifs at hs' with hgood
  obtain ⟨hwritten, hueOf⟩ := hheld.write hget (((s.ueOf rnti).getD .cleared).withTunnel rnti endpoint tunnel)
  obtain ⟨hheld', hmapping, hues, hfreed', howner⟩ := hwritten.teidEntry hs'
  have hsame : s'.ueOf = ueOf { u with ues := s'.ues } := by
    funext k
    rw [ueOf, ueOf, hmapping]
  have howner' : u.ownerOf = s.ownerOf := by
    funext k
    rw [ownerOf, ownerOf, hteid]
  refine ⟨hheld', hgood.2, ?_, howner.trans ?_, hfreed'.trans hfreed⟩
  · rw [hsame, hues, hueOf, hue, update_idem]
  · change update u.ownerOf endpoint.1 (some ((u.ownerOf endpoint.1).getD _)) = _
    rw [howner']

/-- One turn of the deletion, where the UE keeps its entry. -/
theorem Held.deleteTunnel (h : s.Held) (hget : s.ueMapping.get rnti = some (some p)) {ue : UeData}
    (hue : s.ueOf rnti = some ue) (hkeep : (ue.withoutTunnel ebi).numBearers ≠ 0)
    (hs' : s.deleteTunnel rnti p ebi destroyed = some (s', destroyed')) :
    s'.Held ∧ HasPlace ebi ∧ s'.ueMapping = s.ueMapping ∧
      s'.ueOf = update s.ueOf rnti (some (ue.withoutTunnel ebi)) ∧
      s'.ownerOf = update s.ownerOf (ue.bearers (ebi - bearerOffset)).teidENB none := by
  have hself : s.ues p = some ue := (ueOf_of_get hget).symm.trans hue
  rw [Tables.deleteTunnel, hself] at hs'
  simp only [if_neg hkeep] at hs'
  split_ifs at hs' with hplace
  cases hs'
  obtain ⟨hwritten, hueOf⟩ := h.write hget (ue.withoutTunnel ebi)
  obtain ⟨hremoved, hchained⟩ := h.teidMapping.get_remove (ue.bearers (ebi - bearerOffset)).teidENB
  have hget' (k : ℕ) : (s.teidMapping.remove (ue.bearers (ebi - bearerOffset)).teidENB).1.get k =
      update s.teidMapping.get (ue.bearers (ebi - bearerOffset)).teidENB none k := congrFun hremoved k
  refine ⟨⟨hwritten.ueMapping, hchained, hwritten.entry, hwritten.inj, fun k d hk ↦ ?_⟩, hplace, rfl, hueOf,
    funext fun k ↦ ?_⟩
  · have hk := (hget' k).symm.trans hk
    rcases eq_or_ne k (ue.bearers (ebi - bearerOffset)).teidENB with rfl | hne
    · rw [update_self] at hk
      cases hk
    · rw [update_of_ne hne] at hk
      exact h.teid k d hk
  · rw [ownerOf, hget']
    rcases eq_or_ne k (ue.bearers (ebi - bearerOffset)).teidENB with rfl | hne
    · rw [update_self, update_self]
      rfl
    · rw [update_of_ne hne, update_of_ne hne]
      rfl

end Tables

/-- A request, with the TEIDs that the stack accepts and their handles. -/
inductive Request
  | create (req : CreateTunnelReq) (endpoints : ℕ → ℕ × ℕ)
  | delete (req : DeleteTunnelReq)

/-- The bearers that a request for tunnels establishes. -/
def CreateTunnelReq.bearers (req : CreateTunnelReq) : List (ℕ × ℕ) :=
  req.tunnels.map fun tunnel ↦ (req.rnti, tunnel.epsBearerId)

/-- The bearers that a request to delete names. -/
def DeleteTunnelReq.bearers (req : DeleteTunnelReq) : List (ℕ × ℕ) := req.epsBearerIds.map fun ebi ↦ (req.rnti, ebi)

/-- One request, with the bearers that are established. -/
def step : Request → Tables × Finset (ℕ × ℕ) → Option (Tables × Finset (ℕ × ℕ))
  | .create req endpoints, (s, established) =>
    (s.createS1uTunnel req endpoints).map fun r ↦ (r.1, established ∪ req.bearers.toFinset)
  | .delete req, (s, established) => (s.deleteS1uTunnel req).map fun r ↦ (r.1, established \ req.bearers.toFinset)

/-- The two tables are inverse to each other on the bearers that are established. -/
structure MutuallyInverse (r : Tables × Finset (ℕ × ℕ)) : Prop where
  inverse : ∀ q ∈ r.2, ∀ t, (r.1.teidOf q.1 q.2 = t ∧ t ≠ 0) ↔ r.1.ownerOf t = some q
  mem_of_ownerOf : ∀ t q, r.1.ownerOf t = some q → q ∈ r.2

/-- What is to hold after each request. -/
structure Consistent (r : Tables × Finset (ℕ × ℕ)) : Prop extends MutuallyInverse r where
  entry_iff : ∀ rnti, (r.1.ueMapping.get rnti).isSome ↔ ∃ ebi, (rnti, ebi) ∈ r.2
  numBearers_eq : ∀ rnti ue, r.1.ueOf rnti = some ue → ue.numBearers = (r.2.filter (·.1 = rnti)).card
  usedFreed_eq : r.1.usedFreed = false

/-- The tables behind `gtpv1u_eNB_init`, and no bearer is established. -/
def start (counter counter' addr : ℕ) : Tables × Finset (ℕ × ℕ) := (.init counter counter' addr, ∅)

theorem consistent_start (counter counter' addr : ℕ) : Consistent (start counter counter' addr) where
  inverse q hq := by cases hq
  mem_of_ownerOf t q h := by cases h
  entry_iff rnti := by simp [start, Tables.init, HashTable.get, HashTable.find, HashTable.create]
  numBearers_eq rnti ue h := by cases h
  usedFreed_eq := rfl

/-- The counter of bearers stays zero while tunnels are created, and the UE has an entry. -/
theorem createS1uTunnel_numBearers {req : CreateTunnelReq} {endpoints : ℕ → ℕ × ℕ} (h : s.Held)
    (hzero : ∀ ue, s.ueOf req.rnti = some ue → ue.numBearers = 0) (hsome : req.tunnels ≠ [])
    (hs' : s.createS1uTunnel req endpoints = some (s', resp)) :
    ∃ ue, s'.ueOf req.rnti = some ue ∧ ue.numBearers = 0 := by
  have hloop := Fold.foldlM_induction (s := (s, (⟨0, req.rnti, [], none⟩ : CreateTunnelResp)))
    (P := fun front r ↦ r.1.Held ∧ (∀ ue, r.1.ueOf req.rnti = some ue → ue.numBearers = 0) ∧
      (front ≠ [] → (r.1.ueOf req.rnti).isSome)) ⟨h, hzero, nofun⟩ ?_ hs'
  · obtain ⟨-, hzero', hentry⟩ := hloop
    have hne : req.tunnels.zipIdx ≠ [] := by simpa using hsome
    obtain ⟨ue, hue⟩ := Option.isSome_iff_exists.mp (hentry hne)
    exact ⟨ue, hue, hzero' ue hue⟩
  · rintro front ⟨tunnel, i⟩ back ⟨u, r⟩ ⟨v, r'⟩ - ⟨hheld, hcount, -⟩ hv
    have hcreated := hheld.createTunnel hv
    refine ⟨hcreated.held, fun ue hue ↦ ?_, fun _ ↦ ?_⟩
    · rw [hcreated.ueOf_eq, update_self] at hue
      obtain rfl := Option.some.inj hue
      cases hold : u.ueOf req.rnti with
      | none => rfl
      | some old => exact hcount old hold
    · rw [hcreated.ueOf_eq, update_self]
      rfl

variable {counter counter' addr : ℕ} {xs : List Request} {r : Tables × Finset (ℕ × ℕ)} {x : Request}

/-- A request for no tunnel, or one to delete, finds nothing to do in empty tables. -/
theorem step_start (hx : ∀ req endpoints, x = .create req endpoints → req.tunnels = []) :
    step x (start counter counter' addr) = some (start counter counter' addr) := by
  cases x with
  | create req endpoints =>
    have hnil : req.tunnels = [] := hx req endpoints rfl
    simp [step, start, Tables.createS1uTunnel, CreateTunnelReq.bearers, hnil]
  | delete req =>
    have hget : (Tables.init counter counter' addr).ueMapping.get req.rnti = none := rfl
    simp [step, start, Tables.deleteS1uTunnel, hget]

theorem foldlM_start (hxs : ∀ req endpoints, .create req endpoints ∈ xs → req.tunnels = []) :
    xs.foldlM (fun r x ↦ step x r) (start counter counter' addr) = some (start counter counter' addr) := by
  induction xs with
  | nil => rfl
  | cons x xs ih =>
    have hx : ∀ req endpoints, x = .create req endpoints → req.tunnels = [] :=
      fun req endpoints heq ↦ hxs req endpoints (heq ▸ List.mem_cons_self)
    rw [List.foldlM_cons, step_start hx]
    exact ih fun req endpoints hmem ↦ hxs req endpoints (List.mem_cons_of_mem _ hmem)

/-- The first tunnel that is requested is not counted. -/
theorem not_consistent_of_create {req : CreateTunnelReq} {endpoints : ℕ → ℕ × ℕ} (hsome : req.tunnels ≠ [])
    (hr : step (.create req endpoints) (start counter counter' addr) = some r) : ¬Consistent r := by
  intro hconsistent
  obtain ⟨⟨s', resp⟩, hs', rfl⟩ := Option.map_eq_some_iff.mp hr
  obtain ⟨ue, hue, hzero⟩ :=
    createS1uTunnel_numBearers (Tables.Held.init counter counter' addr) nofun hsome hs'
  have hcount := hconsistent.numBearers_eq req.rnti ue hue
  obtain ⟨tunnel, htunnel⟩ := List.exists_mem_of_ne_nil _ hsome
  have hmem : (req.rnti, tunnel.epsBearerId) ∈ (∅ ∪ req.bearers.toFinset).filter (·.1 = req.rnti) := by
    rw [Finset.mem_filter, Finset.empty_union, List.mem_toFinset]
    exact ⟨List.mem_map_of_mem htunnel, rfl⟩
  have hpos := Finset.card_pos.mpr ⟨_, hmem⟩
  dsimp only at hcount
  omega

/-- The tables are consistent after each request exactly as long as no tunnel is requested: `num_bearers` is never
incremented. -/
theorem consistent_run_iff (hrun : xs.foldlM (fun r x ↦ step x r) (start counter counter' addr) = some r) :
    (∀ ys r', ys <+: xs → ys.foldlM (fun r x ↦ step x r) (start counter counter' addr) = some r' → Consistent r') ↔
      ∀ req endpoints, .create req endpoints ∈ xs → req.tunnels = [] := by
  constructor
  · intro hall
    induction xs with
    | nil => exact fun _ _ hmem ↦ absurd hmem List.not_mem_nil
    | cons x xs ih =>
      rw [List.foldlM_cons, Option.bind_eq_bind, Option.bind_eq_some_iff] at hrun
      obtain ⟨c, hc, hrun⟩ := hrun
      have hidle : ∀ req endpoints, x = .create req endpoints → req.tunnels = [] := by
        rintro req endpoints rfl
        by_contra hsome
        exact not_consistent_of_create hsome hc (hall [_] c (List.prefix_iff_eq_take.mpr rfl) (by simp [hc]))
      obtain rfl := Option.some.inj ((step_start hidle).symm.trans hc)
      have hrest := ih hrun fun ys r' hys hr' ↦
        hall (x :: ys) r' (List.cons_prefix_cons.mpr ⟨rfl, hys⟩) (by rw [List.foldlM_cons, hc]; exact hr')
      intro req endpoints hmem
      rcases List.mem_cons.mp hmem with heq | hmem
      · exact hidle req endpoints heq.symm
      · exact hrest req endpoints hmem
  · intro hidle ys r' hys hr'
    rw [foldlM_start fun req endpoints hmem ↦ hidle req endpoints (hys.subset hmem)] at hr'
    exact Option.some.inj hr' ▸ consistent_start counter counter' addr

/-- A tunnel to a gateway with an IPv4 address. -/
def tunnelTo (sgwS1uTeid ebi : ℕ) : Tunnel := ⟨sgwS1uTeid, ebi, ⟨32, [10, 0, 0, 1]⟩⟩

theorem consistent_of_noTunnel : ∃ r, [Request.delete ⟨1, [5, 6]⟩, .create ⟨1, []⟩ fun _ ↦ (10, 1)].foldlM
    (fun r x ↦ step x r) (start 7 8 0) = some r ∧ Consistent r := by
  have hidle : ∀ req endpoints,
      .create req endpoints ∈ [Request.delete ⟨1, [5, 6]⟩, .create ⟨1, []⟩ fun _ ↦ (10, 1)] → req.tunnels = [] := by
    intro req endpoints hmem
    simp only [List.mem_cons, reduceCtorEq, Request.create.injEq, List.not_mem_nil, or_false, false_or] at hmem
    rw [hmem.1]
  exact ⟨_, foldlM_start hidle, (consistent_run_iff (foldlM_start hidle)).mpr hidle _ _ (List.prefix_refl _)
    (foldlM_start hidle)⟩

/-- The bearer is not counted, and once it is created again its old TEID still leads to it. -/
theorem not_consistent_of_recreated : ∃ r r',
    step (.create ⟨1, [tunnelTo 77 5]⟩ fun _ ↦ (10, 1)) (start 0 0 0) = some r ∧
    step (.create ⟨1, [tunnelTo 78 5]⟩ fun _ ↦ (11, 2)) r = some r' ∧
    (r.1.ueOf 1).map UeData.numBearers = some 0 ∧ ¬Consistent r ∧
    r'.1.teidOf 1 5 = 11 ∧ r'.1.ownerOf 10 = some (1, 5) ∧ ¬MutuallyInverse r' := by
  have hrun : ((step (.create ⟨1, [tunnelTo 77 5]⟩ fun _ ↦ (10, 1)) (start 0 0 0)).bind fun r ↦
      (step (.create ⟨1, [tunnelTo 78 5]⟩ fun _ ↦ (11, 2)) r).map fun r' ↦
        ((r.1.ueOf 1).map UeData.numBearers, r'.1.teidOf 1 5, r'.1.ownerOf 10)) =
      some (some 0, 11, some (1, 5)) := by decide
  obtain ⟨r, hr, hrun⟩ := Option.bind_eq_some_iff.mp hrun
  obtain ⟨r', hr', hvalues⟩ := Option.map_eq_some_iff.mp hrun
  simp only [Prod.mk.injEq] at hvalues
  obtain ⟨hcount, hteid, howner⟩ := hvalues
  refine ⟨r, r', hr, hr', hcount, not_consistent_of_create (List.cons_ne_nil _ _) hr, hteid, howner, fun h ↦ ?_⟩
  have hold := (h.inverse (1, 5) (h.mem_of_ownerOf 10 _ howner) 10).mpr howner
  rw [hteid] at hold
  exact absurd hold.1 (by decide)

section Inverse

variable {established : Finset (ℕ × ℕ)} {ue : UeData}

/-- What creations and deletions keep as long as no bearer is established twice and no entry is released. -/
structure Kept (r : Tables × Finset (ℕ × ℕ)) : Prop where
  held : r.1.Held
  hasPlace : ∀ q ∈ r.2, HasPlace q.2
  inverse : ∀ rnti ebi t, HasPlace ebi → ((r.1.teidOf rnti ebi = t ∧ t ≠ 0) ↔ r.1.ownerOf t = some (rnti, ebi))
  mem_of_ownerOf : ∀ t q, r.1.ownerOf t = some q → q ∈ r.2
  numBearers_le : ∀ rnti ue, r.1.ueOf rnti = some ue → ue.numBearers ≤ 0

theorem Kept.mutuallyInverse (h : Kept r) : MutuallyInverse r where
  inverse q hq t := h.inverse q.1 q.2 t (h.hasPlace q hq)
  mem_of_ownerOf := h.mem_of_ownerOf

theorem HasPlace.index_eq_iff {ebi' : ℕ} (h : HasPlace ebi) (h' : HasPlace ebi') :
    ebi' - bearerOffset = ebi - bearerOffset ↔ ebi' = ebi := by
  have hle := h.1
  have hle' := h'.1
  omega

theorem Tables.teidOf_of_some (hue : s.ueOf rnti = some ue) (ebi : ℕ) :
    s.teidOf rnti ebi = (ue.bearers (ebi - bearerOffset)).teidENB := by
  rw [Tables.teidOf, hue]
  rfl

/-- The TEIDs behind one turn of the creation. -/
theorem Tables.Created.teidOf_eq (h : Tables.Created rnti endpoint tunnel s s') {k ebi : ℕ} (hplace : HasPlace ebi) :
    s'.teidOf k ebi = if (k, ebi) = (rnti, tunnel.epsBearerId) then endpoint.1 else s.teidOf k ebi := by
  rcases eq_or_ne k rnti with rfl | hne
  · have hnew := (congrFun h.ueOf_eq k).trans (update_self ..)
    have hold : s.teidOf k ebi = ((((s.ueOf k).getD .cleared).bearers (ebi - bearerOffset)).teidENB) := by
      rw [Tables.teidOf]
      cases s.ueOf k <;> rfl
    rw [Tables.teidOf_of_some hnew, hold]
    simp only [UeData.withTunnel, Prod.mk.injEq, true_and]
    split_ifs with heq
    · subst heq
      rw [update_self]
    · rw [update_of_ne (mt (h.hasPlace.index_eq_iff hplace).mp heq)]
  · have hold := (congrFun h.ueOf_eq k).trans (update_of_ne hne ..)
    rw [if_neg fun heq ↦ hne (congrArg Prod.fst heq), Tables.teidOf, Tables.teidOf, hold]

/-- A bearer that is not established gets a TEID that nothing owns. -/
theorem Kept.created (h : Kept (s, established)) (hcreated : s.Created rnti endpoint tunnel s')
    (hzero : endpoint.1 ≠ 0) (hfresh : s.ownerOf endpoint.1 = none)
    (hnew : (rnti, tunnel.epsBearerId) ∉ established) :
    Kept (s', insert (rnti, tunnel.epsBearerId) established) where
  held := hcreated.held
  hasPlace q hq := by
    rcases Finset.mem_insert.mp hq with rfl | hold
    · exact hcreated.hasPlace
    · exact h.hasPlace q hold
  inverse k ebi t hplace := by
    have hinverse := h.inverse k ebi t hplace
    have howner : s'.ownerOf t = if t = endpoint.1 then some (rnti, tunnel.epsBearerId) else s.ownerOf t := by
      rw [hcreated.ownerOf_eq, hfresh, update_apply]
      rfl
    change (s'.teidOf k ebi = t ∧ t ≠ 0) ↔ s'.ownerOf t = some (k, ebi)
    rw [hcreated.teidOf_eq hplace, howner]
    split_ifs with hself hteid hteid
    · rw [hself, hteid]
      exact iff_of_true ⟨rfl, hzero⟩ rfl
    · -- The bearer has owned nothing.
      refine iff_of_false (fun heq ↦ hteid heq.1.symm) fun howned ↦ ?_
      exact hnew (hself ▸ h.mem_of_ownerOf t _ howned)
    · refine iff_of_false (fun heq ↦ ?_) fun heq ↦ hself (Option.some.inj heq).symm
      have howned := hinverse.mp heq
      rw [hteid, hfresh] at howned
      cases howned
    · exact hinverse
  mem_of_ownerOf t q hq := by
    change s'.ownerOf t = some q at hq
    rw [hcreated.ownerOf_eq, hfresh, update_apply] at hq
    split_ifs at hq
    · exact Finset.mem_insert.mpr (.inl (Option.some.inj hq).symm)
    · exact Finset.mem_insert_of_mem (h.mem_of_ownerOf t q hq)
  numBearers_le k ue hue := by
    change s'.ueOf k = some ue at hue
    rw [hcreated.ueOf_eq, update_apply] at hue
    split_ifs at hue
    · obtain rfl := Option.some.inj hue
      cases hold : s.ueOf rnti with
      | none => exact le_rfl
      | some old => exact h.numBearers_le rnti old hold
    · exact h.numBearers_le k ue hue

/-- The counter of bearers behind a deletion. -/
theorem UeData.withoutTunnel_numBearers (hlow : -2 ^ 31 < ue.numBearers) (hhigh : ue.numBearers ≤ 0) (ebi : ℕ) :
    (ue.withoutTunnel ebi).numBearers = ue.numBearers - 1 :=
  Int.bmod_eq_of_le (by omega) (by omega)

/-- A bearer is deleted together with its TEID. -/
theorem Kept.deleted (h : Kept (s, established)) (hget : s.ueMapping.get rnti = some (some p))
    (hue : s.ueOf rnti = some ue) (hlow : -2 ^ 31 < ue.numBearers)
    (hs' : s.deleteTunnel rnti p ebi destroyed = some (s', destroyed')) :
    Kept (s', established.erase (rnti, ebi)) ∧ s'.ueMapping = s.ueMapping ∧
      s'.ueOf rnti = some (ue.withoutTunnel ebi) := by
  have hcount := UeData.withoutTunnel_numBearers hlow (h.numBearers_le rnti ue hue) ebi
  have hle := h.numBearers_le rnti ue hue
  obtain ⟨hheld, hplace, hmapping, hueOf, hownerOf⟩ := h.held.deleteTunnel hget hue (by omega) hs'
  have hself : s'.ueOf rnti = some (ue.withoutTunnel ebi) := (congrFun hueOf rnti).trans (update_self ..)
  rw [← Tables.teidOf_of_some hue] at hownerOf
  have hteid {k b : ℕ} (hb : HasPlace b) : s'.teidOf k b = if (k, b) = (rnti, ebi) then 0 else s.teidOf k b := by
    rcases eq_or_ne k rnti with rfl | hne
    · rw [Tables.teidOf_of_some hself, Tables.teidOf_of_some hue]
      simp only [UeData.withoutTunnel, Prod.mk.injEq, true_and]
      split_ifs with heq
      · subst heq
        rw [update_self]
      · rw [update_of_ne (mt (hplace.index_eq_iff hb).mp heq)]
    · have hold := (congrFun hueOf k).trans (update_of_ne hne ..)
      rw [if_neg fun heq ↦ hne (congrArg Prod.fst heq), Tables.teidOf, Tables.teidOf, hold]
  have howner (t : ℕ) : s'.ownerOf t = if t = s.teidOf rnti ebi then none else s.ownerOf t := by
    rw [hownerOf, update_apply]
  -- What the deleted bearer has owned is gone.
  have hgone {t : ℕ} (howned : s.ownerOf t = some (rnti, ebi)) : t = s.teidOf rnti ebi :=
    ((h.inverse rnti ebi t hplace).mpr howned).1.symm
  refine ⟨⟨hheld, fun q hq ↦ h.hasPlace q (Finset.mem_of_mem_erase hq), fun k b t hb ↦ ?_, fun t q hq ↦ ?_,
    fun k ue' hue' ↦ ?_⟩, hmapping, hself⟩
  · have hinverse := h.inverse k b t hb
    change (s'.teidOf k b = t ∧ t ≠ 0) ↔ s'.ownerOf t = some (k, b)
    rw [hteid hb, howner]
    split_ifs with hdeleted hold hold
    · exact iff_of_false (fun heq ↦ heq.2 heq.1.symm) nofun
    · refine iff_of_false (fun heq ↦ heq.2 heq.1.symm) fun howned ↦ ?_
      exact hold (hgone (hdeleted ▸ howned))
    · -- Two bearers do not own one TEID.
      refine iff_of_false (fun heq ↦ ?_) nofun
      have howned := (h.inverse rnti ebi t hplace).mp ⟨hold.symm, heq.2⟩
      exact hdeleted (Option.some.inj ((hinverse.mp heq).symm.trans howned))
    · exact hinverse
  · change s'.ownerOf t = some q at hq
    rw [howner] at hq
    split_ifs at hq with hold
    refine Finset.mem_erase.mpr ⟨?_, h.mem_of_ownerOf t q hq⟩
    rintro rfl
    exact hold (hgone hq)
  · change s'.ueOf k = some ue' at hue'
    rw [hueOf, update_apply] at hue'
    split_ifs at hue'
    · obtain rfl := Option.some.inj hue'
      omega
    · exact h.numBearers_le k ue' hue'

/-- The requests that keep the tables inverse: the stack accepts TEIDs that are not in use, no bearer is established
twice, and the counter of bearers does not wrap around. -/
def Separate (r : Tables × Finset (ℕ × ℕ)) : Request → Prop
  | .create req endpoints =>
    (∀ i < req.tunnels.length, (endpoints i).1 ≠ 0 ∧ r.1.ownerOf (endpoints i).1 = none ∧
      ∀ j < i, (endpoints j).1 ≠ (endpoints i).1) ∧
    req.bearers.Nodup ∧ ∀ q ∈ req.bearers, q ∉ r.2
  | .delete req => ∀ ue, r.1.ueOf req.rnti = some ue → -2 ^ 31 + req.epsBearerIds.length ≤ ue.numBearers

theorem union_concat (established : Finset (ℕ × ℕ)) (front : List (ℕ × ℕ)) (q : ℕ × ℕ) :
    established ∪ (front ++ [q]).toFinset = insert q (established ∪ front.toFinset) := by
  ext x
  simp only [Finset.mem_union, List.mem_toFinset, List.mem_append, List.mem_singleton, Finset.mem_insert]
  tauto

theorem sdiff_concat (established : Finset (ℕ × ℕ)) (front : List (ℕ × ℕ)) (q : ℕ × ℕ) :
    established \ (front ++ [q]).toFinset = (established \ front.toFinset).erase q := by
  ext x
  simp only [Finset.mem_sdiff, List.mem_toFinset, List.mem_append, List.mem_singleton, Finset.mem_erase]
  tauto

theorem Kept.createS1uTunnel {req : CreateTunnelReq} {endpoints : ℕ → ℕ × ℕ} (h : Kept (s, established))
    (hgood : Separate (s, established) (.create req endpoints))
    (hs' : s.createS1uTunnel req endpoints = some (s', resp)) : Kept (s', established ∪ req.bearers.toFinset) := by
  obtain ⟨hfresh, hnodup, hnew⟩ := hgood
  have hloop := Fold.foldlM_induction (s := (s, (⟨0, req.rnti, [], none⟩ : CreateTunnelResp)))
    (P := fun front r ↦
      Kept (r.1, established ∪ (front.map fun x : Tunnel × ℕ ↦ (req.rnti, x.1.epsBearerId)).toFinset) ∧
        ∀ t, s.ownerOf t = none → (∀ i < front.length, (endpoints i).1 ≠ t) → r.1.ownerOf t = none)
    ⟨by simpa using h, fun t ht _ ↦ ht⟩ ?_ hs'
  · simpa [CreateTunnelReq.bearers, List.zipIdx_map_fst, ← Function.comp_def, ← List.map_map] using hloop.1
  · rintro front ⟨tunnel, i⟩ back ⟨u, rest⟩ ⟨v, rest'⟩ hbs ⟨hkept, howners⟩ hv
    have hcreated := hkept.held.createTunnel hv
    have hbearers : req.bearers = front.map (fun x ↦ (req.rnti, x.1.epsBearerId)) ++
        (req.rnti, tunnel.epsBearerId) :: back.map fun x ↦ (req.rnti, x.1.epsBearerId) := by
      rw [CreateTunnelReq.bearers, ← List.zipIdx_map_fst 0 req.tunnels, hbs]
      simp [Function.comp_def]
    have hindex : i = front.length ∧ front.length < req.tunnels.length := by
      have hget : req.tunnels.zipIdx[front.length]? = some (tunnel, i) := by simp [hbs]
      rw [List.getElem?_zipIdx, Option.map_eq_some_iff] at hget
      obtain ⟨_, hget, heq⟩ := hget
      exact ⟨by simpa using (congrArg Prod.snd heq).symm, (List.getElem?_eq_some_iff.mp hget).1⟩
    obtain ⟨rfl, hlt⟩ := hindex
    obtain ⟨hzero, hnone, hother⟩ := hfresh _ hlt
    have hfree := howners _ hnone hother
    have hoff : (req.rnti, tunnel.epsBearerId) ∉
        established ∪ (front.map fun x : Tunnel × ℕ ↦ (req.rnti, x.1.epsBearerId)).toFinset := by
      rw [Finset.mem_union, List.mem_toFinset, not_or]
      rw [hbearers] at hnew hnodup
      exact ⟨hnew _ (List.mem_append_right _ List.mem_cons_self),
        fun hmem ↦ (List.nodup_append.mp hnodup).2.2 _ hmem _ List.mem_cons_self rfl⟩
    refine ⟨?_, fun t ht hlast ↦ ?_⟩
    · have hnext := hkept.created hcreated hzero hfree hoff
      rw [List.map_append, List.map_singleton, union_concat]
      exact hnext
    · have hne : t ≠ (endpoints front.length).1 := (hlast _ (by simp)).symm
      rw [hcreated.ownerOf_eq, update_of_ne hne]
      exact howners t ht fun j hj ↦ hlast j (by simp; omega)

theorem Kept.deleteS1uTunnel {req : DeleteTunnelReq} (h : Kept (s, established))
    (hgood : Separate (s, established) (.delete req)) (hs' : s.deleteS1uTunnel req = some (s', destroyed)) :
    Kept (s', established \ req.bearers.toFinset) := by
  rw [Tables.deleteS1uTunnel] at hs'
  cases hget : s.ueMapping.get req.rnti with
  | none =>
    rw [hget] at hs'
    cases hs'
    refine ⟨h.held, fun q hq ↦ h.hasPlace q (Finset.mem_sdiff.mp hq).1, h.inverse, fun t q hq ↦ ?_, h.numBearers_le⟩
    -- The UE has no entry, hence owns no TEID.
    have hmem := h.mem_of_ownerOf t q hq
    have hteid := (h.inverse q.1 q.2 t (h.hasPlace q hmem)).mpr hq
    refine Finset.mem_sdiff.mpr ⟨hmem, fun hdeleted ↦ hteid.2 ?_⟩
    obtain ⟨ebi, -, rfl⟩ := List.mem_map.mp (List.mem_toFinset.mp hdeleted)
    have hnone : s.ueOf req.rnti = none := h.held.ueOf_eq_none.mpr hget
    rw [← hteid.1, Tables.teidOf, hnone]
    rfl
  | some d =>
    obtain ⟨p, ue, rfl, -, hue⟩ := h.held.entry req.rnti d hget
    rw [hget] at hs'
    have hue : s.ueOf req.rnti = some ue := (Tables.Held.ueOf_of_get hget).trans hue
    have hlow := hgood ue hue
    have hloop := Fold.foldlM_induction (s := (s, ([] : List ℕ)))
      (P := fun front r ↦ Kept (r.1, established \ (front.map fun ebi ↦ (req.rnti, ebi)).toFinset) ∧
        r.1.ueMapping.get req.rnti = some (some p) ∧
        ∃ ue, r.1.ueOf req.rnti = some ue ∧
          (-2 ^ 31 + req.epsBearerIds.length : ℤ) ≤ ue.numBearers + front.length)
      ⟨by simpa using h, hget, ue, hue, by simpa using hlow⟩ ?_ hs'
    · exact hloop.1
    · rintro front ebi back ⟨u, d⟩ ⟨v, d'⟩ hbs ⟨hkept, hmapping, old, hold, hcount⟩ hv
      have hlength : front.length + 1 ≤ req.epsBearerIds.length := by
        rw [hbs, List.length_append, List.length_cons]
        omega
      have hlow : -2 ^ 31 < old.numBearers := by omega
      obtain ⟨hnext, hsame, hnew⟩ := hkept.deleted hmapping hold hlow hv
      have hle := UeData.withoutTunnel_numBearers hlow (hkept.numBearers_le _ old hold) ebi
      refine ⟨?_, by rw [hsame]; exact hmapping, _, hnew, ?_⟩
      · rw [List.map_append, List.map_singleton, sdiff_concat]
        exact hnext
      · rw [List.length_append, List.length_singleton]
        push_cast
        omega

/-- As long as no bearer is established twice, the two tables are inverse to each other after every request. -/
theorem mutuallyInverse_of_run (h : GuardedRun step Separate (start counter counter' addr) r) : MutuallyInverse r := by
  refine (h.invariant (P := Kept) ?_ ?_).mutuallyInverse
  · exact ⟨.init counter counter' addr, nofun, fun _ _ _ _ ↦ iff_of_false (fun heq ↦ heq.2 heq.1.symm) nofun,
      nofun, nofun⟩
  · rintro ⟨s, established⟩ x c hkept hgood hx
    cases x with
    | create req endpoints =>
      obtain ⟨⟨s', resp⟩, hs', rfl⟩ := Option.map_eq_some_iff.mp hx
      exact hkept.createS1uTunnel hgood hs'
    | delete req =>
      obtain ⟨⟨s', destroyed⟩, hs', rfl⟩ := Option.map_eq_some_iff.mp hx
      exact hkept.deleteS1uTunnel hgood hs'

end Inverse

end EdgeSlice.Gtpv1u
