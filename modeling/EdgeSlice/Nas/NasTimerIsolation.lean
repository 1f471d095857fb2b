import EdgeSlice.Nas.NasTimerInvariant

/-! When the timers of the NAS layer do not disturb each other. -/

namespace EdgeSlice.Nas

namespace TimerState

variable {γ α : Type*} {ids : ℕ → ℤ} {s : TimerState γ α} {i : TimerId} {l xs ys : List TimerId}
  {t : Started γ α}

/-- What one step does: it meets its conditions and keeps the invariant, or it does not and goes
wrong. -/
def Decides (ids : ℕ → ℤ) (s : TimerState γ α) (e : Event γ α) : Prop :=
  ∃ s' out, s.step ids e = some (s', out) ∧
    (s.Meets e ∧ Inv ids s' ∧ s.Answers e out ∨ ¬s.Meets e ∧ ¬(s.Answers e out ∧ s'.Isolated))

theorem Inv.expiry (h : Inv ids s) (i : TimerId) : Decides ids s (.expiry i) := by
  cases hi : s.started i with
  | none =>
    have hnone : ∀ t, s.started i ≠ some t := fun t ht ↦ Option.some_ne_none t (ht.symm.trans hi)
    have hstep : s.step ids (.expiry i) = some (s, ⟨none, none⟩) := by
      simp [step, (h.idle i hi).2]
    exact ⟨s, _, hstep, .inl ⟨fun t ht ↦ absurd ht (hnone t), h, fun t ht ↦ absurd ht (hnone t)⟩⟩
  | some t =>
    obtain ⟨-, hentry⟩ := h.busy i t hi
    obtain ⟨hlive, -⟩ := h.live i t hi
    have hmem := (h.mem_queue i).mpr (Option.isSome_iff_exists.mpr ⟨t, hi⟩)
    obtain ⟨j, l, hqueue⟩ := List.exists_cons_of_ne_nil (List.ne_nil_of_mem hmem)
    obtain ⟨u, hu⟩ := Option.isSome_iff_exists.mp
      ((h.mem_queue j).mp (hqueue ▸ List.mem_cons_self))
    have hhead : s.timers.db.links.head = some j := by
      rw [h.isQueue.head, hqueue]
      rfl
    have hran : s.timers.nasTimerHandleSignalExpiry = some (u.cb, u.args) := by
      simp only [NasTimers.nasTimerHandleSignalExpiry, hhead, Option.bind_some, (h.busy j u hu).2]
      rfl
    have hstep : s.step ids (.expiry i) = some (s, ⟨none, some (u.cb, u.args)⟩) := by
      simp [step, hentry, Started.entry, hlive, hran]
    refine ⟨s, _, hstep, ?_⟩
    by_cases hsame : u.cb = t.cb ∧ u.args = t.args
    · refine .inl ⟨fun t' ht' ↦ ?_, h, fun t' ht' ↦ ?_⟩
      · rw [hi] at ht'
        cases ht'
        exact ⟨j, u, by rw [hqueue]; rfl, hu, hsame⟩
      · rw [hi] at ht'
        cases ht'
        simp only [hsame]
    · refine .inr ⟨fun hmeets ↦ ?_, fun hdone ↦ ?_⟩
      · obtain ⟨j', u', hj', hu', hsame'⟩ := hmeets t hi
        rw [hqueue] at hj'
        cases hj'
        rw [hu] at hu'
        cases hu'
        exact hsame hsame'
      · have hpair := hdone.1 t hi
        simp only [Option.some.injEq, Prod.mk.injEq] at hpair
        exact hsame hpair

/-- A call that changes nothing. -/
theorem Inv.unchanged (h : Inv ids s) {e : Event γ α} {out : Output γ α}
    (hstep : s.step ids e = some (s, out)) (hmeets : s.Meets e) (hanswers : s.Answers e out) :
    Decides ids s e :=
  ⟨s, out, hstep, .inl ⟨hmeets, h, hanswers⟩⟩

/-- Without timer `i`, where `system` are the system timers that are left. -/
def without (s : TimerState γ α) (i : TimerId) (system : SystemTimers α) : TimerState γ α :=
  ⟨⟨{ s.timers.unlinked i with
      id := Function.update s.timers.db.id i none
      entry := Function.update s.timers.db.entry i none }, system⟩,
    Function.update s.started i none⟩

theorem step_stop {system : SystemTimers α} (hid : s.timers.db.id i = some i)
    (hremove : s.timers._nasTimerDbRemoveEntry i = some (t.entry, ⟨s.timers.unlinked i, system⟩)) :
    s.step ids (.stop (some i)) =
      some (s.without i (timerRemove t.systemId system), ⟨none, none⟩) := by
  have hdelete : (s.timers.unlinked i)._nasTimerDbDeleteEntry i =
      some { s.timers.unlinked i with
        id := Function.update s.timers.db.id i none
        entry := Function.update s.timers.db.entry i none } := if_pos hid
  have hactive : s.timers.db._nasTimerDbIsActive (some i) = true := by
    rw [NasTimerDatabase._nasTimerDbIsActive, hid]
    rfl
  simp only [step, NasTimers.nasTimerStop, hactive, if_true, hremove, Option.bind_some, Started.entry,
    hdelete, Option.map_some]
  rfl

theorem update_none_eq_some {f : TimerId → Option (Started γ α)} {j : TimerId} {u : Started γ α}
    (h : Function.update f i none j = some u) : j ≠ i ∧ f j = some u := by
  have hne : j ≠ i := by
    rintro rfl
    rw [Function.update_self] at h
    cases h
  rw [Function.update_of_ne hne] at h
  exact ⟨hne, h⟩

theorem Inv.without (h : Inv ids s) (hi : s.started i = some t)
    (hqueue : s.queue = xs ++ i :: ys) :
    Inv ids (s.without i (timerRemove t.systemId s.timers.system)) where
  queue := by
    have hqueued := h.queued
    rw [hqueue] at hqueued
    have hremoved := hqueued.remove
    exact ⟨xs ++ ys, hremoved.queue, hremoved.mem, hremoved.sorted⟩
  idle j hj := by
    by_cases hji : j = i
    · subst hji
      exact ⟨Function.update_self .., Function.update_self ..⟩
    · have hidle := h.idle j ((Function.update_of_ne hji _ _).symm.trans hj)
      exact ⟨(Function.update_of_ne hji _ _).trans hidle.1,
        (Function.update_of_ne hji _ _).trans hidle.2⟩
  busy j u hj := by
    obtain ⟨hji, hj⟩ := update_none_eq_some hj
    obtain ⟨hid, hentry⟩ := h.busy j u hj
    exact ⟨(Function.update_of_ne hji _ _).trans hid, (Function.update_of_ne hji _ _).trans hentry⟩
  live j u hj := by
    obtain ⟨hji, hj⟩ := update_none_eq_some hj
    obtain ⟨hlive, hpos, hwhole⟩ := h.live j u hj
    have hother : u.systemId ≠ t.systemId := fun heq ↦ hji (h.distinct j i u t hj hi heq)
    exact ⟨(Function.update_of_ne hother _ _).trans hlive, hpos, hwhole⟩
  given j u hj := h.given j u (update_none_eq_some hj).2
  distinct j k u v hj hk := h.distinct j k u v (update_none_eq_some hj).2 (update_none_eq_some hk).2

/-- A started timer whose system timer has been removed. -/
theorem not_isolated {s : TimerState γ α} (hi : s.started i = some t)
    (hlive : s.timers.system.live t.systemId = none) : ¬s.Isolated := by
  intro h
  obtain ⟨timer, htimer, -⟩ := h.live i t hi
  rw [hlive] at htimer
  cases htimer

/-- Removing the first of several: the second one loses its system timer. -/
theorem Inv.remove_first (h : Inv ids s) (hi : s.started i = some t)
    (hqueue : s.queue = xs ++ i :: ys) (hmany : ¬(xs = [] → ys = [])) :
    ∃ j u, j ≠ i ∧ s.started j = some u ∧ s.timers._nasTimerDbRemoveEntry i =
      some (t.entry, ⟨s.timers.unlinked i, timerRemove u.systemId s.timers.system⟩) := by
  rw [Classical.not_imp] at hmany
  obtain ⟨rfl, hys⟩ := hmany
  obtain ⟨j, ys, rfl⟩ := List.exists_cons_of_ne_nil hys
  have hisQueue := h.isQueue
  rw [hqueue, List.nil_append] at hisQueue
  have hne : j ≠ i := fun heq ↦
    (List.nodup_cons.mp hisQueue.nodup).1 (heq ▸ List.mem_cons_self)
  have hj : j ∈ s.queue := by
    rw [hqueue]
    exact List.mem_cons_of_mem i List.mem_cons_self
  obtain ⟨u, hu⟩ := Option.isSome_iff_exists.mp ((h.mem_queue j).mp hj)
  obtain ⟨hid, hentry⟩ := h.busy i t hi
  exact ⟨j, u, hne, hu,
    NasTimers.removeEntry_first hisQueue hid hentry (h.busy j u hu).2 rfl⟩

theorem Inv.queue_split (h : Inv ids s) (hi : s.started i = some t) :
    ∃ xs ys, s.queue = xs ++ i :: ys :=
  List.append_of_mem ((h.mem_queue i).mpr (Option.isSome_iff_exists.mpr ⟨t, hi⟩))

theorem Inv.removeEntry (h : Inv ids s) (hi : s.started i = some t)
    (hqueue : s.queue = xs ++ i :: ys) (halone : xs = [] → ys = []) :
    s.timers._nasTimerDbRemoveEntry i =
      some (t.entry, ⟨s.timers.unlinked i, s.timers.system⟩) := by
  obtain ⟨hid, hentry⟩ := h.busy i t hi
  have hisQueue := h.isQueue
  rw [hqueue] at hisQueue
  exact NasTimers.removeEntry_eq hisQueue halone hid hentry

theorem Inv.stop (h : Inv ids s) (id : Option TimerId) : Decides ids s (.stop id) := by
  cases id with
  | none => exact h.unchanged rfl (fun i hi ↦ absurd hi nofun) trivial
  | some i =>
    cases hi : s.started i with
    | none =>
      have hsame : Function.update s.started i none = s.started := by
        rw [← hi]
        exact Function.update_eq_self i s.started
      have hstep : s.step ids (.stop (some i)) = some (s, ⟨some i, none⟩) := by
        simp [step, NasTimers.nasTimerStop, NasTimerDatabase._nasTimerDbIsActive, (h.idle i hi).1, hsame]
      refine h.unchanged hstep (fun j hj hsome ↦ ?_) trivial
      cases hj
      rw [hi] at hsome
      cases hsome
    | some t =>
      obtain ⟨hid, -⟩ := h.busy i t hi
      obtain ⟨xs, ys, hqueue⟩ := h.queue_split hi
      have hfirst := notFirst_iff hqueue h.isQueue.nodup
      by_cases halone : xs = [] → ys = []
      · refine ⟨_, _, step_stop hid (h.removeEntry hi hqueue halone), .inl ⟨?_, h.without hi hqueue, trivial⟩⟩
        intro j hj _
        cases hj
        exact hfirst.mpr halone
      · obtain ⟨j, u, hne, hu, hremove⟩ := h.remove_first hi hqueue halone
        refine ⟨_, _, step_stop hid hremove, .inr ⟨fun hmeets ↦ ?_, fun ⟨_, hisolated⟩ ↦ ?_⟩⟩
        · exact halone (hfirst.mp (hmeets i rfl (Option.isSome_iff_exists.mpr ⟨t, hi⟩)))
        · refine not_isolated ((Function.update_of_ne hne _ _).trans hu) ?_ hisolated
          have hother : u.systemId ≠ t.systemId := fun heq ↦ hne (h.distinct j i u t hu hi heq)
          exact (Function.update_of_ne hother _ _).trans (Function.update_self ..)

/-- With an entry for a timer that has been inserted. -/
def having (s : TimerState γ α) (i : TimerId) (t : Started γ α) (timerId : ℕ) (links : Links TimerId)
    (system : SystemTimers α) : TimerState γ α :=
  ⟨⟨⟨timerId, Function.update s.timers.db.id i (some i),
      Function.update s.timers.db.entry i (some t.entry), links⟩, system⟩,
    Function.update s.started i (some t)⟩

theorem update_some_eq_some {f : TimerId → Option (Started γ α)} {j : TimerId} {u : Started γ α}
    (h : Function.update f i (some t) j = some u) : j = i ∧ u = t ∨ j ≠ i ∧ f j = some u := by
  by_cases hji : j = i
  · subst hji
    rw [Function.update_self] at h
    cases h
    exact .inl ⟨rfl, rfl⟩
  · rw [Function.update_of_ne hji] at h
    exact .inr ⟨hji, h⟩

/-- The part of the invariant that is about one timer and its system timer. -/
structure Served (ids : ℕ → ℤ) (system : SystemTimers α) (t : Started γ α) : Prop where
  live : system.live t.systemId = some ⟨t.sec, t.start, t.args⟩
  pos : 0 < t.sec
  whole : ∃ k, t.since.micros = t.start.micros + k * (t.sec * 1000000)
  given : ∃ n < system.count, t.systemId = ids n

theorem Inv.having {system : SystemTimers α} {links : Links TimerId} {timerId : ℕ} (h : Inv ids s)
    (hqueue : links.Queue l)
    (hmem : ∀ a, a ∈ l ↔ (Function.update s.started i (some t) a).isSome)
    (hsorted : l.Pairwise fun a b ↦ (Function.update s.started i (some t) a).elim 0 Started.due ≤
      (Function.update s.started i (some t) b).elim 0 Started.due)
    (hserved : Served ids system t)
    (hothers : ∀ j u, j ≠ i → s.started j = some u →
      Served ids system u ∧ u.systemId ≠ t.systemId) :
    Inv ids (s.having i t timerId links system) where
  queue := ⟨l, hqueue, hmem, hsorted⟩
  idle j hj := by
    have hji : j ≠ i := by
      rintro rfl
      have hself : Function.update s.started j (some t) j = none := hj
      rw [Function.update_self] at hself
      cases hself
    have hidle := h.idle j ((Function.update_of_ne hji _ _).symm.trans hj)
    exact ⟨(Function.update_of_ne hji _ _).trans hidle.1,
      (Function.update_of_ne hji _ _).trans hidle.2⟩
  busy j u hj := by
    rcases update_some_eq_some hj with ⟨rfl, rfl⟩ | ⟨hji, hj⟩
    · exact ⟨Function.update_self .., Function.update_self ..⟩
    · obtain ⟨hid, hentry⟩ := h.busy j u hj
      exact ⟨(Function.update_of_ne hji _ _).trans hid, (Function.update_of_ne hji _ _).trans hentry⟩
  live j u hj := by
    rcases update_some_eq_some hj with ⟨rfl, rfl⟩ | ⟨hji, hj⟩
    · exact ⟨hserved.live, hserved.pos, hserved.whole⟩
    · have hother := (hothers j u hji hj).1
      exact ⟨hother.live, hother.pos, hother.whole⟩
  given j u hj := by
    rcases update_some_eq_some hj with ⟨rfl, rfl⟩ | ⟨hji, hj⟩
    · exact hserved.given
    · exact (hothers j u hji hj).1.given
  distinct j k u v hj hk heq := by
    rcases update_some_eq_some hj with ⟨rfl, rfl⟩ | ⟨hji, hj'⟩
    · rcases update_some_eq_some hk with ⟨rfl, rfl⟩ | ⟨hki, hk'⟩
      · rfl
      · exact absurd heq.symm (hothers k v hki hk').2
    · rcases update_some_eq_some hk with ⟨rfl, rfl⟩ | ⟨hki, hk'⟩
      · exact absurd heq (hothers j u hji hj').2
      · exact h.distinct j k u v hj' hk' heq

theorem Inv.served (h : Inv ids s) (hi : s.started i = some t) : Served ids s.timers.system t := by
  obtain ⟨hlive, hpos, hwhole⟩ := h.live i t hi
  exact ⟨hlive, hpos, hwhole, h.given i t hi⟩

theorem entry_since (t : Started γ α) (now : Clock) :
    NasTimerDatabase.inserted { t.entry with tv := t.entry.itv } now =
      ({ t with since := now } : Started γ α).entry := by
  simp only [NasTimerDatabase.inserted, Started.entry, nasTimerAdd_sec]

/-- A restart takes the entry out of the queue and puts it in again. -/
theorem Inv.step_restart (h : Inv ids s) (hi : s.started i = some t) (now : Clock)
    {system : SystemTimers α} (hqueue : s.queue = xs ++ i :: ys)
    (hremove : s.timers._nasTimerDbRemoveEntry i = some (t.entry, ⟨s.timers.unlinked i, system⟩)) :
    ∃ links l', s.step ids (.restart (some i) now) =
        some (s.having i { t with since := now } s.timers.db.timerId links system, ⟨some i, none⟩) ∧
      links.Queue l' ∧
      (∀ a, a ∈ l' ↔
        (Function.update s.started i (some { t with since := now }) a).isSome) ∧
      l'.Pairwise fun a b ↦
        (Function.update s.started i (some { t with since := now }) a).elim 0 Started.due ≤
          (Function.update s.started i (some { t with since := now }) b).elim 0 Started.due := by
  have hqueued := h.queued
  rw [hqueue] at hqueued
  obtain ⟨links, l', hinsert, hlinks⟩ := hqueued.remove.insert
    { t.entry with tv := t.entry.itv } now (Function.update_self ..) (t := { t with since := now })
    (congrArg NasTimerEntry.tv (entry_since t now))
  rw [Function.update_idem, entry_since] at *
  refine ⟨links, l', ?_, hlinks⟩
  have hactive : s.timers.db._nasTimerDbIsActive (some i) = true := by
    rw [NasTimerDatabase._nasTimerDbIsActive, (h.busy i t hi).1]
    rfl
  have hinsert' : (s.timers.unlinked i)._nasTimerDbInsertEntry i { t.entry with tv := t.entry.itv } now =
      _ := hinsert
  simp only [step, NasTimers.nasTimerRestart, hactive, if_true, hremove, Option.bind_some, hinsert',
    Option.map_some, Option.elim_some, hi]
  rfl

theorem Inv.restart (h : Inv ids s) (id : Option TimerId) (now : Clock) :
    Decides ids s (.restart id now) := by
  cases id with
  | none => exact h.unchanged rfl (fun i _ hi _ ↦ absurd hi nofun) trivial
  | some i =>
    cases hi : s.started i with
    | none =>
      have hsame : Function.update s.started i none = s.started := by
        rw [← hi]
        exact Function.update_eq_self i s.started
      have hstep : s.step ids (.restart (some i) now) = some (s, ⟨none, none⟩) := by
        simp [step, NasTimers.nasTimerRestart, NasTimerDatabase._nasTimerDbIsActive, (h.idle i hi).1, hi,
          hsame]
      refine h.unchanged hstep (fun j t hj ht ↦ ?_) trivial
      cases hj
      rw [hi] at ht
      cases ht
    | some t =>
      obtain ⟨xs, ys, hqueue⟩ := h.queue_split hi
      have hfirst := notFirst_iff hqueue h.isQueue.nodup
      have hserved := h.served hi
      by_cases halone : xs = [] → ys = []
      · obtain ⟨links, l', hstep, hlinks, hmem, hsorted⟩ :=
          h.step_restart hi now hqueue (h.removeEntry hi hqueue halone)
        refine ⟨_, _, hstep, ?_⟩
        by_cases hwhole : ∃ k, now.micros = t.start.micros + k * (t.sec * 1000000)
        · refine .inl ⟨fun j u hj hu ↦ ?_, h.having hlinks hmem hsorted
            ⟨hserved.live, hserved.pos, hwhole, hserved.given⟩ (fun j u hji hu ↦ ⟨h.served hu, ?_⟩),
            trivial⟩
          · cases hj
            rw [hi] at hu
            cases hu
            exact ⟨hfirst.mpr halone, hwhole⟩
          · exact fun heq ↦ hji (h.distinct j i u t hu hi heq)
        · refine .inr ⟨fun hmeets ↦ hwhole (hmeets i t rfl hi).2, fun ⟨_, hisolated⟩ ↦ hwhole ?_⟩
          obtain ⟨timer, htimer, hleast⟩ := hisolated.live i _ (Function.update_self ..)
          cases hserved.live.symm.trans htimer
          have hperiod : 0 < t.sec * 1000000 := Nat.mul_pos hserved.pos (by decide)
          exact (isLeast_period_iff hperiod).mp hleast
      · obtain ⟨j, u, hne, hu, hremove⟩ := h.remove_first hi hqueue halone
        obtain ⟨links, l', hstep, -⟩ := h.step_restart hi now hqueue hremove
        refine ⟨_, _, hstep, .inr ⟨fun hmeets ↦ ?_, fun ⟨_, hisolated⟩ ↦ ?_⟩⟩
        · exact halone (hfirst.mp (hmeets i t rfl hi).1)
        · exact not_isolated ((Function.update_of_ne hne _ _).trans hu) (Function.update_self ..)
            hisolated

theorem Inv.start (h : Inv ids s) (hids : Function.Injective ids) (sec : ℕ) (cb : γ) (args : α)
    (setup : Bool) (now : Clock) : Decides ids s (.start sec cb args setup now) := by
  rcases Nat.eq_zero_or_pos sec with rfl | hsec
  · exact h.unchanged rfl (fun hne ↦ absurd rfl hne) fun i hi ↦ absurd hi.symm (Option.some_ne_none i)
  rcases s.timers.db.getId_cases with ⟨hfull, hall⟩ | ⟨i, hget, hfree⟩
  · have hstep : s.step ids (.start sec cb args setup now) = some (s, ⟨none, none⟩) := by
      simp [step, NasTimers.nasTimerStart, hsec.ne', hfull]
    refine h.unchanged hstep (fun _ hfree ↦ ?_) fun i hi ↦ absurd hi.symm (Option.some_ne_none i)
    obtain ⟨i, hi⟩ := hfree
    exact absurd hi (hall i)
  · have hi : s.started i = none := h.id_eq_none_iff.mp hfree
    have hqueued : Queued { s.timers.db with timerId := i.val + 1 } s.started s.queue :=
      ⟨h.isQueue, h.mem_queue, h.sorted, h.queued.entry⟩
    obtain ⟨links, l', hinsert, hlinks, hmem, hsorted⟩ := hqueued.insert
      (NasTimerDatabase._nasTimerDbCreateEntry sec cb args) now hi
      (t := ⟨cb, args, sec, now, now, ids s.timers.system.count⟩)
      (nasTimerAdd_sec sec now)
    cases setup with
    | false =>
      have hstep : ∃ s', s.step ids (.start sec cb args false now) = some (s', ⟨none, none⟩) ∧
          s'.timers.db.links = links ∧ s'.started = s.started := by
        simp [step, NasTimers.nasTimerStart, hsec.ne', hget, hinsert]
      obtain ⟨s', hstep, hlinks', hstarted⟩ := hstep
      refine ⟨s', _, hstep, .inr ⟨fun hmeets ↦ ?_, fun hdone ↦ ?_⟩⟩
      · exact absurd (hmeets hsec.ne' ⟨i, hfree⟩).1 Bool.false_ne_true
      · -- the entry stays in the queue
        have hqueue : s'.queue = l' := by
          apply queue_eq
          rw [hlinks']
          exact hlinks
        have hin : i ∈ l' := by
          rw [hmem, Function.update_self]
          rfl
        rw [← hqueue, hdone.2.mem, hstarted, hi] at hin
        cases hin
    | true =>
      have hstep : s.step ids (.start sec cb args true now) =
          some (s.having i ⟨cb, args, sec, now, now, ids s.timers.system.count⟩ (i.val + 1) links
            (timerSetup ids sec args now s.timers.system).2, ⟨some i, none⟩) := by
        simp only [step, NasTimers.nasTimerStart, hsec.ne', if_false, hget, hinsert, Option.bind_some,
          if_true]
        simp [TimerState.having, timerSetup, NasTimerDatabase.inserted,
          NasTimerDatabase._nasTimerDbCreateEntry, Started.entry, nasTimerAdd_sec]
      refine ⟨_, _, hstep, ?_⟩
      have hanswers : s.Answers (.start sec cb args true now) ⟨some i, none⟩ := fun j hj ↦ by
        cases hj
        exact hi
      by_cases hfits : sec < 2 ^ 32
      · refine .inl ⟨fun _ _ ↦ ⟨rfl, hfits⟩, h.having hlinks hmem hsorted ⟨?_, hsec, ⟨0, ?_⟩, ?_⟩
          fun j u hji hu ↦ ?_, hanswers⟩
        · rw [timerSetup, Nat.mod_eq_of_lt hfits]
          exact Function.update_self ..
        · rw [Nat.zero_mul, Nat.add_zero]
        · exact ⟨_, Nat.lt_succ_self _, rfl⟩
        · have hu' := h.served hu
          obtain ⟨n, hn, hid⟩ := hu'.given
          have hother : u.systemId ≠ ids s.timers.system.count := fun heq ↦
            hn.ne (hids (hid.symm.trans heq))
          exact ⟨⟨(Function.update_of_ne hother _ _).trans hu'.live, hu'.pos, hu'.whole,
            ⟨n, Nat.lt_succ_of_lt hn, hid⟩⟩, hother⟩
      · refine .inr ⟨fun hmeets ↦ hfits (hmeets hsec.ne' ⟨i, hfree⟩).2, fun hdone ↦ ?_⟩
        obtain ⟨timer, htimer, hleast⟩ := hdone.2.live i _ (Function.update_self ..)
        cases (Function.update_self ..).symm.trans htimer
        have hle := period_of_isLeast (Nat.mul_pos hsec (by decide)) hleast
        have hle' : sec ≤ sec % 2 ^ 32 := Nat.le_of_mul_le_mul_right hle (by decide)
        omega

theorem Inv.decides (h : Inv ids s) (hids : Function.Injective ids) (e : Event γ α) :
    Decides ids s e := by
  cases e with
  | start sec cb args setup now => exact h.start hids sec cb args setup now
  | stop id => exact h.stop id
  | restart id now => exact h.restart id now
  | expiry i => exact h.expiry i

theorem RunsIsolated.isolated {es : List (Event γ α)} (h : RunsIsolated ids s es) : s.Isolated := by
  cases es with
  | nil => exact h
  | cons e es => exact h.1

theorem Inv.runs_iff (h : Inv ids s) (hids : Function.Injective ids)
    (es : List (Event γ α)) : RunsIsolated ids s es ↔ AllMeet ids s es := by
  induction es generalizing s with
  | nil => exact iff_of_true h.isolated trivial
  | cons e es ih =>
    obtain ⟨s', out, hstep, hdecides⟩ := h.decides hids e
    rw [RunsIsolated, AllMeet, hstep]
    rcases hdecides with ⟨hmeets, hinv, hanswers⟩ | ⟨hmeets, hwrong⟩
    · constructor
      · rintro ⟨-, s'', out', heq, -, hrest⟩
        cases heq
        refine ⟨hmeets, fun s₂ out₂ heq₂ ↦ ?_⟩
        cases heq₂
        exact (ih hinv).mp hrest
      · rintro ⟨-, hrest⟩
        exact ⟨h.isolated, s', out, rfl, hanswers, (ih hinv).mpr (hrest s' out rfl)⟩
    · refine iff_of_false ?_ fun hall ↦ hmeets hall.1
      rintro ⟨-, s'', out', heq, hanswers, hrest⟩
      cases heq
      exact hwrong ⟨hanswers, hrest.isolated⟩

/-- From an empty database on, the timers stay isolated if and only if every step meets its
conditions. -/
theorem runsIsolated_iff (hids : Function.Injective ids) (es : List (Event γ α)) :
    RunsIsolated ids init es ↔ AllMeet ids init es :=
  init_inv.runs_iff hids es

/-- The ids of the system timers are their numbers. -/
def counted : ℕ → ℤ := fun k ↦ k

def firstId : TimerId := ⟨0, by decide⟩

def secondId : TimerId := ⟨1, by decide⟩

def second (sec : ℕ) : Clock := ⟨sec, 0, by decide⟩

/-- Timers of five and of ten seconds, where the short one is restarted when it expires. -/
def retransmission : List (Event ℕ ℕ) :=
  [.start 5 10 0 true (second 0), .expiry firstId, .restart (some firstId) (second 5),
    .start 10 20 1 true (second 6), .stop (some secondId)]

/-- Timers of ten and of five seconds, where the short one is stopped. -/
def shortStopped : List (Event ℕ ℕ) :=
  [.start 10 10 0 true (second 0), .start 5 20 1 true (second 1), .stop (some secondId)]

/-- The state after a run. -/
def run (ids : ℕ → ℤ) : TimerState γ α → List (Event γ α) → Option (TimerState γ α)
  | s, [] => some s
  | s, e :: es => (s.step ids e).bind fun result ↦ run ids result.1 es

theorem RunsIsolated.run {es : List (Event γ α)} (h : RunsIsolated ids s es) :
    ∃ s', run ids s es = some s' ∧ s'.Isolated := by
  induction es generalizing s with
  | nil => exact ⟨s, rfl, h⟩
  | cons e es ih =>
    obtain ⟨-, s', out, hstep, -, hrest⟩ := h
    obtain ⟨s'', hrun, hisolated⟩ := ih hrest
    refine ⟨s'', ?_, hisolated⟩
    rw [TimerState.run, hstep, Option.bind_some, hrun]

/-- The queue, and when a timer was started and for how long. -/
def facts (s : TimerState γ α) : List TimerId × Option (ℕ × ℕ) :=
  (s.queue, (s.started firstId).map fun t ↦ (t.start.micros, t.sec))

theorem retransmission_isolated : RunsIsolated counted init retransmission := by
  have hcounted : Function.Injective counted := fun _ _ h ↦ Int.ofNat_inj.mp h
  refine (runsIsolated_iff hcounted retransmission).mpr ?_
  refine ⟨fun _ _ ↦ ⟨rfl, by decide⟩, fun s₁ _ h₁ ↦ ⟨?_, fun s₂ _ h₂ ↦ ⟨?_, fun s₃ _ h₃ ↦
    ⟨fun _ _ ↦ ⟨rfl, by decide⟩, fun s₄ _ h₄ ↦ ⟨?_, fun _ _ _ ↦ trivial⟩⟩⟩⟩⟩
  · have hfacts : (run counted init (retransmission.take 1)).map (·.queue) = some [firstId] := by
      decide +kernel
    simp only [retransmission, List.take, run, h₁, Option.bind_some, Option.map_some,
      Option.some_inj] at hfacts
    intro t ht
    exact ⟨firstId, t, by rw [hfacts]; rfl, ht, rfl, rfl⟩
  · have hfacts : (run counted init (retransmission.take 2)).map facts =
        some ([firstId], some (0, 5)) := by
      decide +kernel
    simp only [retransmission, List.take, run, h₁, h₂, Option.bind_some, Option.map_some,
      Option.some_inj, facts, Prod.mk.injEq] at hfacts
    intro i t hi ht
    cases hi
    rw [ht, Option.map_some, Option.some_inj, Prod.mk.injEq] at hfacts
    refine ⟨fun _ ↦ hfacts.1, 1, ?_⟩
    rw [hfacts.2.1, hfacts.2.2]
    rfl
  · have hfacts : (run counted init (retransmission.take 4)).map (·.queue) =
        some [firstId, secondId] := by
      decide +kernel
    simp only [retransmission, List.take, run, h₁, h₂, h₃, h₄, Option.bind_some, Option.map_some,
      Option.some_inj] at hfacts
    intro i hi _ hfirst
    cases hi
    rw [hfacts] at hfirst
    exact absurd hfirst (by decide)

/-- The system timer of the long timer is removed with the short one. -/
theorem not_runsIsolated_shortStopped : ¬RunsIsolated counted init shortStopped := by
  intro h
  obtain ⟨s, hrun, hisolated⟩ := h.run
  have hstate : (run counted init shortStopped).map (fun s ↦
      ((s.started firstId).map (·.systemId), (s.timers.system.live 0).isSome)) =
        some (some 0, false) := by decide +kernel
  rw [hrun, Option.map_some, Option.some_inj, Prod.mk.injEq] at hstate
  obtain ⟨t, ht, hid⟩ := Option.map_eq_some_iff.mp hstate.1
  obtain ⟨timer, htimer, -⟩ := hisolated.live firstId t ht
  rw [hid] at htimer
  rw [htimer] at hstate
  cases hstate.2

end TimerState

end EdgeSlice.Nas
