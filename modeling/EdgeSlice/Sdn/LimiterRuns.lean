import EdgeSlice.Sdn.LimiterRates

namespace EdgeSlice.Sdn.BandwidthLimiter

open Function

namespace Users

variable {us : Users} {β : Type*} {rate : β → ℤ} {st st' : State}

/-- When each switch has `n s` meters, the first free number is the next one. -/
structure MetersAdded (us : Users) (n : ℕ → ℕ) (x : (ℕ → ℕ → ℕ → ℕ) × Switches) : Prop where
  numbered : ∀ s < switches, ∀ m, 1 ≤ m → ((x.2 s).meters.get m = none ↔ n s < m)
  mL : ∀ s < switches, ∀ top < 2, ∀ u < us.nou, top * us.nou + u < n s →
    x.1 top u s = top * us.nou + u + 1

theorem MetersAdded.add {n : ℕ → ℕ} {x : (ℕ → ℕ → ℕ → ℕ) × Switches} (h : us.MetersAdded n x)
    {e u i : ℕ} (he : e < 2) (hu : u < us.nou) (hi : i < switches) (hn : n i = e * us.nou + u)
    (kbps : ℤ) :
    us.MetersAdded (update n i (n i + 1))
      (update x.1 e (update (x.1 e) u (update (x.1 e u) i (addMeter x.2 i kbps).1)),
        (addMeter x.2 i kbps).2) := by
  have hfree : (x.2 i).meters.firstFree 1 = n i + 1 := by
    refine IdTable.firstFree_eq ((h.numbered i hi (n i + 1) (by omega)).mpr (by omega)) (by omega) ?_
    intro m hm hlt hnone
    have := (h.numbered i hi m hm).mp hnone
    omega
  refine ⟨fun s hs m hm ↦ ?_, fun s hs top htop v hv hlt ↦ ?_⟩
  · simp only [addMeter]
    by_cases hsi : s = i
    · subst hsi
      rw [update_self, update_self, hfree]
      by_cases hmn : m = n s + 1
      · rw [hmn, IdTable.put_get_self]
        exact iff_of_false (Option.some_ne_none _) (by omega)
      · rw [IdTable.put_get_of_ne _ _ hmn, h.numbered s hs m hm]
        omega
    · rw [update_of_ne hsi, update_of_ne hsi]
      exact h.numbered s hs m hm
  · simp only [addMeter, hfree]
    by_cases hsi : s = i
    · subst hsi
      rw [update_self] at hlt
      by_cases hnew : top = e ∧ v = u
      · obtain ⟨rfl, rfl⟩ := hnew
        rw [update_self, update_self, update_self, hn]
      · have hold : top * us.nou + v < n s := by
          have hne : top * us.nou + v ≠ e * us.nou + u := by
            intro heq
            apply hnew
            obtain rfl | rfl : top = 0 ∨ top = 1 := by omega
            · obtain rfl | rfl : e = 0 ∨ e = 1 := by omega
              · omega
              · omega
            · obtain rfl | rfl : e = 0 ∨ e = 1 := by omega
              · omega
              · omega
          omega
        rw [← h.mL s hs top htop v hv hold]
        by_cases hte : top = e
        · subst hte
          rw [update_self, update_of_ne (fun hvu ↦ hnew ⟨rfl, hvu⟩)]
        · rw [update_of_ne hte]
    · rw [update_of_ne hsi] at hlt
      rw [← h.mL s hs top htop v hv hlt]
      by_cases hte : top = e
      · subst hte
        rw [update_self]
        by_cases hvu : v = u
        · subst hvu
          rw [update_self, update_of_ne hsi]
        · rw [update_of_ne hvu]
      · rw [update_of_ne hte]

theorem setUpMeters_added (us : Users) {d : Switches} (hd : ∀ s < switches, d s = .clear) :
    us.MetersAdded (fun _ ↦ 2 * us.nou) (us.setUpMeters d) := by
  rw [setUpMeters]
  refine Fold.range_induction (P := fun e ↦ us.MetersAdded (fun _ ↦ e * us.nou)) ?_ ?_
  · refine ⟨fun s hs m hm ↦ ?_, fun s hs top htop u hu hlt ↦ ?_⟩
    · simp only [hd s hs]
      exact iff_of_true rfl (by omega)
    · omega
  intro e he x hx
  have hrow : us.MetersAdded (fun _ ↦ e * us.nou + us.nou) ((List.range us.nou).foldl (fun x u ↦
      (List.range switches).foldl (fun x s ↦
        let added := addMeter x.2 s 40000
        (update x.1 e (update (x.1 e) u (update (x.1 e u) s added.1)), added.2)) x) x) := by
    refine Fold.range_induction (P := fun u ↦ us.MetersAdded (fun _ ↦ e * us.nou + u)) hx ?_
    intro u hu x hx
    have hswitches : us.MetersAdded
        (fun s ↦ if s < switches then e * us.nou + u + 1 else e * us.nou + u)
        ((List.range switches).foldl (fun x s ↦
          let added := addMeter x.2 s 40000
          (update x.1 e (update (x.1 e) u (update (x.1 e u) s added.1)), added.2)) x) := by
      refine Fold.range_induction (P := fun i ↦ us.MetersAdded
        (fun s ↦ if s < i then e * us.nou + u + 1 else e * us.nou + u)) hx ?_
      intro i hi x hx
      have hadd := hx.add he hu hi (if_neg (lt_irrefl i)) 40000
      have hcount : update (fun s ↦ if s < i then e * us.nou + u + 1 else e * us.nou + u) i
          ((if i < i then e * us.nou + u + 1 else e * us.nou + u) + 1) =
          fun s ↦ if s < i + 1 then e * us.nou + u + 1 else e * us.nou + u := by
        funext s
        by_cases hsi : s = i
        · subst hsi
          rw [update_self, if_neg (lt_irrefl s), if_pos (Nat.lt_succ_self s)]
        · rw [update_of_ne hsi]
          by_cases hlt : s < i
          · rw [if_pos hlt, if_pos (by omega)]
          · rw [if_neg hlt, if_neg (by omega)]
      rw [hcount] at hadd
      exact hadd
    refine ⟨fun s hs ↦ ?_, fun s hs ↦ ?_⟩
    · have := hswitches.numbered s hs
      rwa [if_pos hs] at this
    · have := hswitches.mL s hs
      rwa [if_pos hs] at this
  have hnext : e * us.nou + us.nou = (e + 1) * us.nou := (Nat.succ_mul e us.nou).symm
  rw [hnext] at hrow
  exact hrow

theorem clear_all (d : Switches) : ∀ s < switches,
    (List.range switches).foldl (fun d s ↦ update d s .clear) d s = .clear := by
  refine Fold.range_induction (P := fun i (d : Switches) ↦ ∀ s < i, d s = .clear) ?_ ?_
  · intro s hs
    omega
  · intro i _ d hd s hs
    by_cases hsi : s = i
    · rw [hsi, update_self]
    · rw [update_of_ne hsi]
      exact hd s (by omega)

theorem setUp_known {d : Switches} (h : us.setUp d = some st) : us.Known st := by
  rw [setUp] at h
  split at h
  · cases h
  · rename_i hnou
    cases h
    have hadded := setUpMeters_added us (clear_all d)
    refine ⟨Nat.pos_of_ne_zero fun hzero ↦ hnou (.inl hzero), fun top htop u hu s hs ↦ ?_,
      Nat.succ_pos 1⟩
    apply hadded.mL s hs top htop u hu
    obtain rfl | rfl : top = 0 ∨ top = 1 := by omega
    · omega
    · omega

theorem change_mL {top s meter rows : ℕ} {bandwidth : β}
    (h : us.change rate st top s meter rows bandwidth = .done st') : st'.mL = st.mL := by
  obtain ⟨-, rfl⟩ := change_eq_done.mp h
  rfl

theorem changeNew_mL {fuel top : ℕ} {param : List (Address × β)} {x : ℕ × ℕ}
    (h : us.changeNew rate fuel top param st x = .done st') : st'.mL = st.mL := by
  rw [changeNew] at h
  split at h
  · split at h <;> cases h
    rfl
  · obtain ⟨check, -, h⟩ := Outcome.bind_eq_done.mp h
    split at h
    · cases h
      rfl
    · exact change_mL h

theorem changeEntry_mL {top : ℕ} {bandwidth : β} {x : Address × β}
    (h : us.changeEntry rate top bandwidth st x = .done st') : st'.mL = st.mL := by
  rw [changeEntry] at h
  split at h
  · cases h
    rfl
  · refine Outcome.loop_invariant (P := fun r : State ↦ r.mL = st.mL) ?_ rfl h
    intro r s r' hr hdone
    rw [changeOld] at hdone
    split at hdone
    · exact (change_mL hdone).trans hr
    · cases hdone
      exact hr

theorem controlLoop_known (hst : us.Known st) {fuel : ℕ} {param : List (Address × β)}
    (h : us.controlLoop rate fuel st param = .done st') : us.Known st' := by
  obtain ⟨st₁, hnew, hrest⟩ := Outcome.bind_eq_done.mp h
  obtain ⟨st₂, hold, hdone⟩ := Outcome.bind_eq_done.mp hrest
  have hmL₁ : st₁.mL = st.mL := Outcome.loop_invariant (P := fun r : State ↦ r.mL = st.mL)
    (fun r x r' hr hx ↦ (changeNew_mL hx).trans hr) rfl hnew
  have hmL₂ : st₂.mL = st.mL := by
    cases param with
    | nil =>
      cases hold
      exact hmL₁
    | cons first param =>
      have hmL : (us.recreate (newTop st) st₁).mL = st.mL := hmL₁
      exact Outcome.loop_invariant (P := fun r : State ↦ r.mL = st.mL)
        (fun r x r' hr hx ↦ (changeEntry_mL hx).trans hr) hmL hold
  cases hdone
  refine ⟨hst.nou_pos, ?_, newTop_lt st⟩
  rw [hmL₂]
  exact hst.mL

/-- The states at the start of an iteration, after any requests. -/
inductive Reachable (us : Users) (rate : β → ℤ) : State → Prop
  | setUp {d : Switches} {st : State} (h : us.setUp d = some st) : Reachable us rate st
  | iterate {fuel : ℕ} {param : List (Address × β)} {st st' : State} (hst : Reachable us rate st)
      (h : us.controlLoop rate fuel st param = .done st') : Reachable us rate st'

theorem Reachable.known (h : us.Reachable rate st) : us.Known st := by
  induction h with
  | setUp h => exact setUp_known h
  | iterate _ h ih => exact controlLoop_known ih h

/-- An iteration applies a request exactly when the rates fit. -/
theorem appliesRates_iff (hst : us.Reachable rate st) {req : List (Address × β)}
    (hreq : us.Lists req) : us.AppliesRates rate st req ↔ us.RatesFit rate st req :=
  ⟨ratesFit_of_applies hst.known hreq, applies_of_ratesFit hst.known hreq⟩

end Users

/-- The users in the script. -/
def sixUsers : Users where
  b1U := ["172.16.0.2".toList, "172.16.0.4".toList, "10.0.0.101".toList]
  b2U := ["172.16.0.6".toList, "172.16.0.8".toList, "10.0.0.102".toList]
  nodup := by decide

def twoUsers : Users where
  b1U := ["172.16.0.2".toList]
  b2U := ["172.16.0.6".toList]
  nodup := by decide

def megabytes (bandwidth : ℕ) : ℤ := bandwidth * 1000

theorem twoUsers_applied : ∃ st, twoUsers.Reachable megabytes st ∧
    twoUsers.AppliesRates megabytes st [("172.16.0.6".toList, 20), ("172.16.0.2".toList, 20)] := by
  obtain ⟨st, hst⟩ : ∃ st, twoUsers.setUp (fun _ ↦ .clear) = some st := ⟨_, rfl⟩
  have hreach : twoUsers.Reachable megabytes st := .setUp hst
  have hreq : twoUsers.Lists [("172.16.0.6".toList, 20), ("172.16.0.2".toList, 20)] :=
    List.Perm.swap _ _ _
  refine ⟨st, hreach, (Users.appliesRates_iff hreach hreq).mpr ⟨by decide, by decide, by decide, ?_⟩⟩
  intro u x hx hnot
  have hfound : ∀ x ∈ [("172.16.0.6".toList, 20), ("172.16.0.2".toList, 20)],
      twoUsers.Found (Prod.fst x) := by decide
  exact absurd (hfound x (List.mem_of_getElem? hx)) hnot

/-- The last loop gives all users the first user's bandwidth. -/
theorem not_rates_applied : ∃ st, sixUsers.Reachable megabytes st ∧
    ¬sixUsers.AppliesRates megabytes st (sixUsers.all.zip [10, 20, 30, 40, 50, 60]) := by
  obtain ⟨st, hst⟩ : ∃ st, sixUsers.setUp (fun _ ↦ .clear) = some st := ⟨_, rfl⟩
  refine ⟨st, .setUp hst, fun h ↦ ?_⟩
  have hreq : sixUsers.Lists (sixUsers.all.zip [10, 20, 30, 40, 50, 60]) := List.Perm.refl _
  have hfit := Users.ratesFit_of_applies (Users.setUp_known hst) hreq h
  have hne : megabytes 10 ≠ megabytes 20 := by decide
  exact hne (hfit.2.2.1 ("172.16.0.2".toList, 10) (by decide) ("172.16.0.4".toList, 20) (by decide))

end EdgeSlice.Sdn.BandwidthLimiter
