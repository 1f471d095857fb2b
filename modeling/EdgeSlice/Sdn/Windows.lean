import EdgeSlice.Sdn.Controller

namespace EdgeSlice.Sdn

open Function

/-- Two datastores that agree but for the meters in `T`, given by switch and number, and
the flows bound to these. -/
structure SameOutside (T : ℕ → ℕ → Prop) (d e : Datastore) : Prop where
  flows : ∀ s id f, ¬ T s f.meter → ((d s).flows.get id = some f ↔ (e s).flows.get id = some f)
  meters : ∀ s m, ¬ T s m → (d s).meters.get m = (e s).meters.get m
  groups : ∀ s, (d s).groups = (e s).groups

namespace SameOutside

variable {T U : ℕ → ℕ → Prop} {d e : Datastore}

theorem refl (T : ℕ → ℕ → Prop) (d : Datastore) : SameOutside T d d :=
  ⟨fun _ _ _ _ ↦ Iff.rfl, fun _ _ _ ↦ rfl, fun _ ↦ rfl⟩

theorem trans (a b c : Datastore) (h : SameOutside T a b) (h' : SameOutside T b c) :
    SameOutside T a c :=
  ⟨fun s id f hf ↦ (h.flows s id f hf).trans (h'.flows s id f hf),
    fun s m hm ↦ (h.meters s m hm).trans (h'.meters s m hm),
    fun s ↦ (h.groups s).trans (h'.groups s)⟩

theorem mono (hTU : ∀ s m, T s m → U s m) (h : SameOutside T d e) : SameOutside U d e :=
  ⟨fun s id f hf ↦ h.flows s id f (mt (hTU s _) hf), fun s m hm ↦ h.meters s m (mt (hTU s m) hm),
    h.groups⟩

theorem of_switch {s : ℕ} (hothers : ∀ i, i ≠ s → e i = d i)
    (hflows : ∀ id f, ¬ T s f.meter → ((d s).flows.get id = some f ↔ (e s).flows.get id = some f))
    (hmeters : ∀ m, ¬ T s m → (d s).meters.get m = (e s).meters.get m)
    (hgroups : (d s).groups = (e s).groups) : SameOutside T d e := by
  refine ⟨fun i id f hf ↦ ?_, fun i m hm ↦ ?_, fun i ↦ ?_⟩ <;> by_cases hi : i = s
  · subst hi
    exact hflows id f hf
  · rw [hothers i hi]
  · subst hi
    exact hmeters m hm
  · rw [hothers i hi]
  · subst hi
    exact hgroups
  · rw [hothers i hi]

theorem request_meters {s meter : ℕ} {g : SwitchConfig}
    (hflows : g.flows = (d s).flows) (hgroups : g.groups = (d s).groups)
    (hmeters : ∀ m, m ≠ meter → g.meters.get m = (d s).meters.get m) :
    SameOutside (fun i m ↦ i = s ∧ m = meter) d (update d s g) := by
  apply of_switch (fun i hi ↦ update_of_ne hi _ _) <;> rw [update_self]
  · intro id f _
    rw [hflows]
  · intro m hm
    rw [hmeters m (fun h ↦ hm ⟨rfl, h⟩)]
  · exact hgroups.symm

theorem addFlow (maxFlows : ℕ) {s : ℕ} {f : Flow} (hf : T s f.meter) (d : Datastore) :
    SameOutside T d (update d s ((d s).addFlow maxFlows f)) := by
  have hfree := (d s).flows.firstFree_get (1 + maxFlows * (f.meter - 1))
  apply of_switch (fun i hi ↦ update_of_ne hi _ _) <;> rw [update_self]
  · intro id g hg
    by_cases hid : id = (d s).flows.firstFree (1 + maxFlows * (f.meter - 1))
    · rw [hid, hfree]
      refine iff_of_false (fun h ↦ nomatch h) (fun h ↦ ?_)
      have hfg : f = g := Option.some.inj ((IdTable.put_get_self _ _ _).symm.trans h)
      exact hg (hfg ▸ hf)
    · rw [SwitchConfig.addFlow, IdTable.add, IdTable.put_get_of_ne _ _ hid]
  · exact fun m _ ↦ rfl
  · rfl

end SameOutside

/-- `e` is `d` less some flows that switch `s` had bound to a meter. -/
structure Pruned (s meter : ℕ) (d e : Datastore) : Prop where
  others : ∀ i, i ≠ s → e i = d i
  meters : (e s).meters = (d s).meters
  groups : (e s).groups = (d s).groups
  flows : ∀ id f, (d s).flows.get id = some f → f.meter ≠ meter → (e s).flows.get id = some f
  kept : ∀ id f, (e s).flows.get id = some f → (d s).flows.get id = some f

namespace Pruned

variable {s meter : ℕ}

theorem refl (s meter : ℕ) (d : Datastore) : Pruned s meter d d :=
  ⟨fun _ _ ↦ rfl, rfl, rfl, fun _ _ h _ ↦ h, fun _ _ h ↦ h⟩

theorem trans (a b c : Datastore) (h : Pruned s meter a b) (h' : Pruned s meter b c) :
    Pruned s meter a c :=
  ⟨fun i hi ↦ (h'.others i hi).trans (h.others i hi), h'.meters.trans h.meters,
    h'.groups.trans h.groups,
    fun id f hf hm ↦ h'.flows id f (h.flows id f hf hm) hm,
    fun id f hf ↦ h.kept id f (h'.kept id f hf)⟩

theorem deleteFlow {d : Datastore} {id : ℕ} {f : Flow} (hf : (d s).flows.get id = some f)
    (hm : f.meter = meter) : Pruned s meter d (update d s ((d s).deleteFlow id)) := by
  refine ⟨fun i hi ↦ update_of_ne hi _ _, by rw [update_self]; rfl, by rw [update_self]; rfl, ?_, ?_⟩
  · intro j g hg hgm
    have hj : j ≠ id := by
      rintro rfl
      rw [hf] at hg
      cases hg
      exact hgm hm
    rw [update_self]
    exact (IdTable.erase_get_of_ne _ hj).trans hg
  · intro j g hg
    rw [update_self] at hg
    by_cases hj : j = id
    · rw [hj] at hg
      cases (IdTable.erase_get_self _ id).symm.trans hg
    · exact (IdTable.erase_get_of_ne _ hj).symm.trans hg

theorem sameOutside {d e : Datastore} (h : Pruned s meter d e) :
    SameOutside (fun i m ↦ i = s ∧ m = meter) d e := by
  apply SameOutside.of_switch h.others
  · intro id f hf
    exact ⟨fun hd ↦ h.flows id f hd (fun hm ↦ hf ⟨rfl, hm⟩), h.kept id f⟩
  · intro m _
    rw [h.meters]
  · exact h.groups.symm

end Pruned

namespace Controller

variable {maxFlows s meter : ℕ}

@[simp] theorem request_now (c : Controller) (s : ℕ) (change : SwitchConfig → SwitchConfig) :
    (c.request s change).now = update c.now s (change (c.now s)) := rfl

theorem request_same {α : Type*} (field : SwitchConfig → α) (change : SwitchConfig → SwitchConfig)
    (hchange : ∀ g, field (change g) = field g) (c : Controller) (s i : ℕ) :
    field ((c.request s change).now i) = field (c.now i) := by
  rw [request_now]
  by_cases hi : i = s
  · rw [hi, update_self, hchange]
  · rw [update_of_ne hi]

theorem deleteFlows_pruned (fuel outCount curFlow : ℕ) (c : Controller) :
    c.Within (Pruned s meter) (deleteFlows maxFlows s meter fuel outCount curFlow c) := by
  induction fuel generalizing outCount curFlow c with
  | zero => exact .refl (Pruned.refl s meter) c
  | succ fuel ih =>
    rw [deleteFlows]
    by_cases hout : outCount < maxFlows + 1
    · rw [if_pos hout]
      cases hf : (c.now s).flows.get curFlow with
      | none => exact ih _ _ c
      | some f =>
        dsimp only
        by_cases hm : f.meter = meter
        · rw [if_pos hm]
          have hstep : c.Within (Pruned s meter) (c.request s (·.deleteFlow curFlow)) :=
            .step (.deleteFlow hf hm)
          exact hstep.trans Pruned.trans (ih _ _ _)
        · rw [if_neg hm]
          exact ih _ _ c
    · rw [if_neg hout]
      exact .refl (Pruned.refl s meter) c

/-- The loop reaches every number of the window before it has missed too often. -/
theorem deleteFlows_window {fuel outCount curFlow id : ℕ} {c : Controller} (hle : curFlow ≤ id)
    (hout : id + outCount < curFlow + (maxFlows + 1)) (hfuel : id < curFlow + fuel) {f : Flow}
    (hf : ((deleteFlows maxFlows s meter fuel outCount curFlow c).now s).flows.get id = some f) :
    f.meter ≠ meter := by
  induction fuel generalizing outCount curFlow c with
  | zero => omega
  | succ fuel ih =>
    by_cases hid : curFlow = id
    · subst hid
      have hbefore := (deleteFlows_pruned (fuel + 1) outCount curFlow c).now.kept _ _ hf
      intro hm
      rw [deleteFlows, if_pos (by omega), hbefore] at hf
      dsimp only at hf
      rw [if_pos hm] at hf
      have hgone := (deleteFlows_pruned _ _ _ _).now.kept _ _ hf
      rw [request_now, update_self] at hgone
      cases (IdTable.erase_get_self _ curFlow).symm.trans hgone
    · rw [deleteFlows, if_pos (by omega)] at hf
      cases hcur : (c.now s).flows.get curFlow with
      | none =>
        rw [hcur] at hf
        exact ih (by omega) (by omega) (by omega) hf
      | some g =>
        rw [hcur] at hf
        dsimp only at hf
        by_cases hm : g.meter = meter
        · rw [if_pos hm] at hf
          exact ih (by omega) (by omega) (by omega) hf
        · rw [if_neg hm] at hf
          exact ih (by omega) (by omega) (by omega) hf

theorem deleteFlows_stops (more : ℕ) {fuel outCount curFlow : ℕ} {c : Controller}
    (hfuel : ((c.now s).flows.bound - curFlow) + (maxFlows + 1 - outCount) ≤ fuel) :
    deleteFlows maxFlows s meter (fuel + more) outCount curFlow c =
      deleteFlows maxFlows s meter fuel outCount curFlow c := by
  induction fuel generalizing outCount curFlow c with
  | zero =>
    cases more with
    | zero => rfl
    | succ more => rw [Nat.zero_add, deleteFlows, deleteFlows, if_neg (by omega)]
  | succ fuel ih =>
    rw [Nat.add_right_comm, deleteFlows, deleteFlows]
    by_cases hout : outCount < maxFlows + 1
    · rw [if_pos hout, if_pos hout]
      cases hf : (c.now s).flows.get curFlow with
      | none => exact ih (by omega)
      | some f =>
        have hlt := IdTable.lt_bound hf
        dsimp only
        by_cases hm : f.meter = meter
        · rw [if_pos hm, if_pos hm]
          refine ih ?_
          have hbound : ((c.request s (·.deleteFlow curFlow)).now s).flows.bound =
              (c.now s).flows.bound :=
            request_same (·.flows.bound) (·.deleteFlow curFlow) (fun _ ↦ rfl) c s s
          omega
        · rw [if_neg hm, if_neg hm]
          exact ih (by omega)
    · rw [if_neg hout, if_neg hout]

end Controller

/-- Every flow has a number in the window of its meter. The last meter, which is that of
the ARP flows, may have more flows than a window holds. -/
def Placed (maxFlows last : ℕ) (g : SwitchConfig) : Prop :=
  ∀ id f, g.flows.get id = some f → 1 ≤ f.meter ∧ f.meter ≤ last ∧
    1 + maxFlows * (f.meter - 1) ≤ id ∧ (f.meter < last → id < 1 + maxFlows * f.meter)

namespace Placed

variable {maxFlows last m : ℕ} {g : SwitchConfig}

/-- A number in the window of a meter holds flows of this meter only. -/
theorem meter_eq (h : Placed maxFlows last g) {id : ℕ} {f : Flow} (hf : g.flows.get id = some f)
    (hlast : m < last) (hlow : 1 + maxFlows * (m - 1) ≤ id) (hhigh : id < 1 + maxFlows * m) :
    f.meter = m := by
  obtain ⟨hpos, -, hfl, hfh⟩ := h id f hf
  have hle : f.meter - 1 < m := Nat.lt_of_mul_lt_mul_left (a := maxFlows) (by omega)
  have hge : m - 1 < f.meter :=
    Nat.lt_of_mul_lt_mul_left (a := maxFlows) (by have := hfh (by omega); omega)
  omega

theorem of_kept (h : Placed maxFlows last g) {g' : SwitchConfig}
    (hkept : ∀ id f, g'.flows.get id = some f → g.flows.get id = some f) :
    Placed maxFlows last g' :=
  fun id f hf ↦ h id f (hkept id f hf)

end Placed

namespace Controller

variable {maxFlows last s meter : ℕ} {c : Controller}

theorem deleteMeter_pruned (maxFlows s meter : ℕ) (c : Controller) :
    c.Within (Pruned s meter) (deleteMeter maxFlows c s meter) :=
  deleteFlows_pruned _ _ _ c

theorem deleteMeter_within (maxFlows s meter : ℕ) (c : Controller) :
    c.Within (SameOutside fun i m ↦ i = s ∧ m = meter) (deleteMeter maxFlows c s meter) :=
  (deleteMeter_pruned maxFlows s meter c).mono (fun _ _ ↦ Pruned.sameOutside)

/-- With more fuel `deleteMeter` does the same. -/
theorem deleteMeter_stops (maxFlows s meter more : ℕ) (c : Controller) :
    deleteFlows maxFlows s meter ((c.now s).flows.bound + maxFlows + 1 + more) 0
      (1 + maxFlows * (meter - 1)) c = deleteMeter maxFlows c s meter :=
  deleteFlows_stops more (by omega)

theorem deleteMeter_clean (hc : Placed maxFlows last (c.now s)) (hlast : meter < last) {id : ℕ}
    {f : Flow} (hf : ((deleteMeter maxFlows c s meter).now s).flows.get id = some f) :
    f.meter ≠ meter := by
  intro hm
  have hbefore := (deleteMeter_pruned maxFlows s meter c).now.kept id f hf
  obtain ⟨hpos, -, hlow, hhigh⟩ := hc id f hbefore
  rw [hm] at hpos hlow hhigh
  have hwidth : 1 + maxFlows * meter = 1 + maxFlows * (meter - 1) + maxFlows := by
    rw [Nat.add_assoc, ← Nat.mul_succ, Nat.succ_eq_add_one, Nat.sub_add_cancel hpos]
  have hhigh' := hhigh hlast
  exact deleteFlows_window hlow (by omega) (by omega) hf hm

theorem modifyMeter_kept (maxFlows s meter : ℕ) (c : Controller) (kbps : ℤ) (i id : ℕ) (f : Flow)
    (hf : ((modifyMeter maxFlows c s meter kbps).now i).flows.get id = some f) :
    (c.now i).flows.get id = some f := by
  have hpruned := (deleteMeter_pruned maxFlows s meter (c.request s (·.deleteMeter meter))).now
  rw [modifyMeter, request_now] at hf
  by_cases hi : i = s
  · rw [hi, update_self] at hf
    have h := hpruned.kept id f hf
    rw [request_now, update_self] at h
    rwa [hi]
  · rw [update_of_ne hi, hpruned.others i hi, request_now, update_of_ne hi] at hf
    exact hf

theorem modifyMeter_clean (hc : Placed maxFlows last (c.now s)) (hlast : meter < last) {kbps : ℤ}
    {id : ℕ} {f : Flow}
    (hf : ((modifyMeter maxFlows c s meter kbps).now s).flows.get id = some f) :
    f.meter ≠ meter := by
  rw [modifyMeter, request_now, update_self] at hf
  have hplaced : Placed maxFlows last ((c.request s (·.deleteMeter meter)).now s) := by
    rw [request_now, update_self]
    exact hc.of_kept (fun _ _ h ↦ h)
  exact deleteMeter_clean hplaced hlast hf

theorem modifyMeter_rate (maxFlows s meter : ℕ) (c : Controller) (kbps : ℤ) :
    ((modifyMeter maxFlows c s meter kbps).now s).meters.get meter =
      some ⟨kbps, 100, kbps, 1000⟩ := by
  rw [modifyMeter, request_now, update_self]
  exact IdTable.put_get_self _ _ _

theorem modifyMeter_within (maxFlows s meter : ℕ) (c : Controller) (kbps : ℤ) :
    c.Within (SameOutside fun i m ↦ i = s ∧ m = meter) (modifyMeter maxFlows c s meter kbps) := by
  have hdelete : c.Within (SameOutside fun i m ↦ i = s ∧ m = meter)
      (c.request s (·.deleteMeter meter)) := by
    refine .step (SameOutside.request_meters rfl rfl ?_)
    intro m hm
    exact IdTable.erase_get_of_ne _ hm
  have hflows := deleteMeter_within maxFlows s meter (c.request s (·.deleteMeter meter))
  refine (hdelete.trans SameOutside.trans hflows).trans SameOutside.trans (.step ?_)
  refine SameOutside.request_meters rfl rfl ?_
  intro m hm
  exact IdTable.put_get_of_ne _ _ hm

/-- Flows that are added one after the other, each to its switch. -/
def addFlows (maxFlows : ℕ) (c : Controller) (es : List (ℕ × Flow)) : Controller :=
  es.foldl (fun c e ↦ c.addFlowWithMeter maxFlows e.1 e.2) c

theorem addFlows_within (maxFlows : ℕ) {T : ℕ → ℕ → Prop} {es : List (ℕ × Flow)}
    (hes : ∀ e ∈ es, T e.1 e.2.meter) (c : Controller) : c.Within (SameOutside T) (addFlows maxFlows c es) := by
  refine .foldl (SameOutside.refl T) SameOutside.trans es ?_ c
  intro c e he
  exact .step (SameOutside.addFlow maxFlows (hes e he) c.now)

theorem addFlows_now (es : List (ℕ × Flow)) (c : Controller) (s : ℕ) :
    (addFlows maxFlows c es).now s =
      ((es.filter (·.1 = s)).map Prod.snd).foldl (SwitchConfig.addFlow maxFlows) (c.now s) := by
  induction es generalizing c with
  | nil => rfl
  | cons e es ih =>
    rw [addFlows, List.foldl_cons, ← addFlows, ih, addFlowWithMeter, request_now]
    by_cases he : e.1 = s
    · rw [he, update_self, List.filter_cons_of_pos (by simpa using he), List.map_cons,
        List.foldl_cons]
    · rw [update_of_ne (Ne.symm he), List.filter_cons_of_neg (by simpa using he)]

/-- Only the flows change. -/
theorem addFlows_same {α : Type*} (field : SwitchConfig → α)
    (hfield : ∀ g f, field (g.addFlow maxFlows f) = field g) (c : Controller) (es : List (ℕ × Flow))
    (s : ℕ) : field ((addFlows maxFlows c es).now s) = field (c.now s) := by
  rw [addFlows_now]
  refine List.foldlRecOn _ (SwitchConfig.addFlow maxFlows)
    (motive := fun g : SwitchConfig ↦ field g = field (c.now s)) rfl (fun g hg f _ ↦ ?_)
  exact (hfield g f).trans hg

theorem addFlow_foldl {fs : List Flow} (hfs : ∀ f ∈ fs, f.meter = meter) (g : SwitchConfig) :
    fs.foldl (SwitchConfig.addFlow maxFlows) g =
      { g with flows := fs.foldl (fun t f ↦ t.add (1 + maxFlows * (meter - 1)) f) g.flows } := by
  induction fs generalizing g with
  | nil => rfl
  | cons f fs ih =>
    rw [List.foldl_cons, ih (fun f' hf' ↦ hfs f' (List.mem_cons_of_mem _ hf')), List.foldl_cons,
      SwitchConfig.addFlow, hfs f List.mem_cons_self]

/-- Flows of a meter without flows fill its window from the start on. -/
theorem addFlows_flows {es : List (ℕ × Flow)} (hes : ∀ e ∈ es, e.2.meter = meter)
    (hc : Placed maxFlows last (c.now s)) (hpos : 1 ≤ meter) (hlast : meter < last)
    (hclean : ∀ id f, (c.now s).flows.get id = some f → f.meter ≠ meter)
    (hfit : (es.filter (·.1 = s)).length ≤ maxFlows) (id : ℕ) :
    ((addFlows maxFlows c es).now s).flows.get id =
      if 1 + maxFlows * (meter - 1) ≤ id ∧
          id < 1 + maxFlows * (meter - 1) + (es.filter (·.1 = s)).length then
        ((es.filter (·.1 = s)).map Prod.snd)[id - (1 + maxFlows * (meter - 1))]?
      else (c.now s).flows.get id := by
  have hfs : ∀ f ∈ (es.filter (·.1 = s)).map Prod.snd, f.meter = meter := by
    intro f hf
    obtain ⟨e, he, rfl⟩ := List.mem_map.mp hf
    exact hes e (List.mem_of_mem_filter he)
  have hwidth : 1 + maxFlows * meter = 1 + maxFlows * (meter - 1) + maxFlows := by
    rw [Nat.add_assoc, ← Nat.mul_succ, Nat.succ_eq_add_one, Nat.sub_add_cancel hpos]
  rw [addFlows_now, addFlow_foldl hfs]
  have h := IdTable.addAll_get ((es.filter (·.1 = s)).map Prod.snd) (t := (c.now s).flows)
    (Nat.le_refl (1 + maxFlows * (meter - 1))) (fun j hj hjn ↦ absurd hj (by omega)) ?_ id
  · rw [List.length_map] at h
    exact h
  · intro j hj hjn
    rw [List.length_map] at hjn
    cases hf : (c.now s).flows.get j with
    | none => rfl
    | some f => exact absurd (hc.meter_eq hf hlast hj (by omega)) (hclean j f hf)

end Controller

end EdgeSlice.Sdn
