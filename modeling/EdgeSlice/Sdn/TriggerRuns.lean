import EdgeSlice.Sdn.RequestService
import EdgeSlice.Sdn.TaskTrigger

namespace EdgeSlice.Sdn.TaskTrigger

open RequestQueue (Param Entry wholeFloat)

variable {F : Type} (φ : FloatText F)

/-- What a task makes `cont_config_SDN` send when the SDN controller is ready. -/
def configMessage (param : List (Param F)) : Option Text :=
  if NamesNode φ param then (currentTask φ nou param).bind (taskMessage φ) else none

def message (task : Text) : Option Text :=
  if task.Finds "155.0." ∧ (queryParam φ task).1 = false then
    (queryParam φ task).2.bind (configMessage φ)
  else none

/-- Every task has been sent, in order. -/
def Sent (taken sent : List Text) : Prop :=
  List.Forall₂ (fun task m ↦ message φ task = some m) taken sent

def Query.InProgress : Query F → Prop
  | .idle | .dead => False
  | _ => True

/-- The query has taken a task that it is still to send. -/
def Query.Holds : Query F → Prop
  | .answered _ | .configuring _ => True
  | _ => False

/-- No trigger is lost, and every task taken is sent. -/
structure DApp.KeepsTriggers (s : DApp F) : Prop where
  nonneg : 0 ≤ s.queryTrigger
  trigger : s.ledger ≠ [] → ¬s.query.InProgress → s.pending = 0 → 0 < s.queryTrigger
  sent : ¬s.query.Holds → Sent φ s.taken s.sent

/-- The next step of the query finds the SDN controller ready, and resets the trigger only
while every task on the ledger has its notification to come. -/
def Query.Guarded (s : DApp F) : Query F → Prop
  | .overwriting | .clearing true => s.ledger.length ≤ s.pending
  | .configuring _ => s.sdnStatus = .ready
  | .idle | .querying | .answered _ | .completing | .clearing false | .finishing | .dead => True

/-- The first round of updates is over, the tasks can be sent and are confirmed, and the
steps of the query are guarded. -/
def Guarded (s : DApp F) : Event → Prop
  | .enqueue task => (message φ task).isSome = true
  | .notify late => late = true ∨ 2 ≤ s.notifier.frou
  | .complete confirmed => confirmed = true
  | .queryTurn => s.query.Guarded s
  | .answer _ | .initTurn => True

instance Query.decidableGuarded (s : DApp F) : ∀ q : Query F, Decidable (q.Guarded s)
  | .overwriting | .clearing true => inferInstanceAs (Decidable (_ ≤ _))
  | .configuring _ => inferInstanceAs (Decidable (_ = _))
  | .idle | .querying | .answered _ | .completing | .clearing false | .finishing | .dead =>
    inferInstanceAs (Decidable True)

instance (s : DApp F) : ∀ e, Decidable (Guarded φ s e)
  | .enqueue _ => inferInstanceAs (Decidable (_ = _))
  | .notify _ => inferInstanceAs (Decidable (_ ∨ _))
  | .complete _ => inferInstanceAs (Decidable (_ = _))
  | .queryTurn => s.query.decidableGuarded s
  | .answer _ | .initTurn => inferInstanceAs (Decidable True)

/-- The invariant of the guarded runs, by the trigger and by how many more tasks the ledger
holds than it has notifications on their way. -/
def Query.Kept (trigger known : ℤ) (taken sent : List Text) : Query F → Prop
  | .idle => 0 ≤ trigger ∧ known ≤ trigger ∧ Sent φ taken sent
  | .querying | .completing => 1 ≤ trigger ∧ known ≤ trigger ∧ Sent φ taken sent
  | .answered nextTask =>
    1 ≤ trigger ∧ known ≤ trigger ∧
      (nextTask = "No Task Available".toList ∧ known + 1 ≤ trigger ∧ Sent φ taken sent ∨
        ∃ done, taken = done ++ [nextTask] ∧ (message φ nextTask).isSome ∧ Sent φ done sent)
  | .configuring param =>
    1 ≤ trigger ∧ known ≤ trigger ∧ ∃ done task m, taken = done ++ [task] ∧
      message φ task = some m ∧ configMessage φ param = some m ∧ Sent φ done sent
  | .overwriting | .clearing _ | .finishing =>
    1 ≤ trigger ∧ known + 1 ≤ trigger ∧ Sent φ taken sent
  | .dead => False

structure DApp.Kept (s : DApp F) : Prop where
  query : s.query.Kept φ s.queryTrigger (s.ledger.length - s.pending) s.taken s.sent
  ledger : ∀ task ∈ s.ledger, (message φ task).isSome

variable {φ} {s t : DApp F}

theorem Query.Kept.mono {q : Query F} {trigger trigger' known known' : ℤ} {taken sent : List Text}
    (h : q.Kept φ trigger known taken sent) (htrigger : trigger ≤ trigger')
    (hknown : known' - known ≤ trigger' - trigger) : q.Kept φ trigger' known' taken sent := by
  cases q with
  | idle | querying | completing | overwriting | clearing | finishing =>
    obtain ⟨hpos, hle, hsent⟩ := h
    exact ⟨by omega, by omega, hsent⟩
  | configuring param =>
    obtain ⟨hpos, hle, hsent⟩ := h
    exact ⟨by omega, by omega, hsent⟩
  | answered nextTask =>
    obtain ⟨hpos, hle, ⟨hnext, hno, hsent⟩ | hsent⟩ := h
    · exact ⟨by omega, by omega, .inl ⟨hnext, by omega, hsent⟩⟩
    · exact ⟨by omega, by omega, .inr hsent⟩
  | dead => exact h

theorem Notifier.update_queued {n : Notifier} (h : 2 ≤ n.frou) : (n.update .queued).2 = true := by
  simp only [update]
  split
  · rfl
  · rw [if_neg (by omega)]

namespace DApp

theorem kept_init : (DApp.init : DApp F).Kept φ :=
  ⟨⟨le_rfl, le_rfl, .nil⟩, List.forall_mem_nil _⟩

namespace Kept

theorem keepsTriggers (h : s.Kept φ) : s.KeepsTriggers φ := by
  have hquery := h.query
  refine ⟨?_, ?_, ?_⟩
  · cases hq : s.query with
    | dead =>
      rw [hq] at hquery
      exact hquery.elim
    | _ =>
      rw [hq] at hquery
      have := hquery.1
      omega
  · intro hledger hidle hpending
    cases hq : s.query with
    | idle =>
      rw [hq, hpending] at hquery
      have hlen := List.length_pos_of_ne_nil hledger
      have hle := hquery.2.1
      omega
    | dead =>
      rw [hq] at hquery
      exact hquery.elim
    | _ =>
      rw [hq] at hidle
      exact absurd trivial hidle
  · intro hfree
    cases hq : s.query with
    | answered | configuring =>
      rw [hq] at hfree
      exact absurd trivial hfree
    | dead =>
      rw [hq] at hquery
      exact hquery.elim
    | _ =>
      rw [hq] at hquery
      exact hquery.2.2

theorem of_enqueue (h : s.Kept φ) {task : Text} (htask : (message φ task).isSome) :
    ({ s with ledger := s.ledger ++ [task], pending := s.pending + 1 } : DApp F).Kept φ := by
  refine ⟨h.query.mono le_rfl ?_, ?_⟩
  · simp only [List.length_append, List.length_singleton]
    omega
  · intro x hx
    rcases List.mem_append.mp hx with hx | hx
    · exact h.ledger x hx
    · rw [List.mem_singleton.mp hx]
      exact htask

theorem of_notify (h : s.Kept φ) {late : Bool} (hok : late = true ∨ 2 ≤ s.notifier.frou)
    (hstep : s.notify late = some t) : t.Kept φ := by
  unfold DApp.notify at hstep
  split at hstep
  · rename_i hpending
    have hcounted : ((if late then { s.notifier with frou := 2 } else s.notifier).update
        .queued).2 = true := by
      apply Notifier.update_queued
      rcases hok with rfl | hfrou
      · exact le_rfl
      · cases late
        · exact hfrou
        · exact le_rfl
    generalize (if late then { s.notifier with frou := 2 } else s.notifier).update .queued = n at *
    obtain ⟨n, counted⟩ := n
    subst hcounted
    cases hstep
    exact ⟨h.query.mono (by simp only [if_true]; omega) (by simp only [if_true]; omega), h.ledger⟩
  · cases hstep

theorem of_initTurn (h : s.Kept φ) (hstep : s.initTurn = some t) : t.Kept φ := by
  unfold DApp.initTurn at hstep
  split at hstep
  · split at hstep
    · cases hstep
      exact ⟨h.query, h.ledger⟩
    · cases hstep
  · cases hstep
    exact ⟨h.query, h.ledger⟩
  · cases hstep
    exact ⟨h.query.mono (by simp only; omega) (by simp only; omega), h.ledger⟩
  · cases hstep

theorem of_answer (h : s.Kept φ) {lost : Bool} (hstep : s.answer lost = some t) : t.Kept φ := by
  have hquery := h.query
  unfold DApp.answer at hstep
  split at hstep
  · rename_i hq
    rw [hq] at hquery
    obtain ⟨hpos, hle, hsent⟩ := hquery
    split at hstep
    · cases hstep
      exact ⟨⟨Int.le_of_lt hpos, hle, hsent⟩, h.ledger⟩
    · split at hstep
      · rename_i hnil
        cases hstep
        refine ⟨⟨hpos, hle, .inl ⟨rfl, ?_, hsent⟩⟩, h.ledger⟩
        simp only [hnil, List.length_nil]
        omega
      · rename_i task rest hcons
        cases hstep
        have htask := h.ledger task (by rw [hcons]; exact List.mem_cons_self)
        exact ⟨⟨hpos, hle, .inr ⟨s.taken, rfl, htask, hsent⟩⟩, h.ledger⟩
  · cases hstep

theorem of_complete (h : s.Kept φ) (hstep : s.complete true = some t) : t.Kept φ := by
  have hquery := h.query
  unfold DApp.complete at hstep
  split at hstep
  · rename_i hq
    rw [hq] at hquery
    obtain ⟨hpos, hle, hsent⟩ := hquery
    cases hstep
    refine ⟨⟨hpos, ?_, hsent⟩, fun task htask ↦ h.ledger task (List.mem_of_mem_tail htask)⟩
    cases hledger : s.ledger with
    | nil =>
      simp only [List.tail_nil, List.length_nil]
      omega
    | cons task rest =>
      rw [hledger, List.length_cons] at hle
      simp only [List.tail_cons]
      omega
  · cases hstep

/-- An answer that holds a task starts its configuration, and the other answer ends the
query. -/
theorem of_takeAnswer (h : s.Kept φ) {nextTask : Text} (hq : s.query = .answered nextTask) :
    (s.takeAnswer φ nextTask).Kept φ := by
  have hquery := h.query
  rw [hq] at hquery
  obtain ⟨hpos, hle, ⟨rfl, hno, hsent⟩ | ⟨done, htaken, htask, hsent⟩⟩ := hquery
  · unfold DApp.takeAnswer
    rw [if_neg (by decide), if_pos (by decide)]
    split
    · exact ⟨⟨hpos, hno, hsent⟩, h.ledger⟩
    · exact ⟨⟨hpos, hno, hsent⟩, h.ledger⟩
  · obtain ⟨m, hm⟩ := Option.isSome_iff_exists.mp htask
    have hparam := hm
    unfold message at hparam
    split at hparam
    · rename_i hfinds
      obtain ⟨param, hparam, hconfig⟩ := Option.bind_eq_some_iff.mp hparam
      have heq : s.takeAnswer φ nextTask = { s with query := .configuring param } := by
        unfold DApp.takeAnswer
        rw [if_pos hfinds.1]
        simp only [hfinds.2, hparam]
        rfl
      rw [heq]
      exact ⟨⟨hpos, hle, done, nextTask, m, htaken, hm, hconfig, hsent⟩, h.ledger⟩
    · cases hparam

theorem of_contConfigSDN (h : s.Kept φ) {param : List (Param F)} (hq : s.query = .configuring param)
    (hready : s.sdnStatus = .ready) : (s.contConfigSDN φ param).Kept φ := by
  have hquery := h.query
  rw [hq] at hquery
  obtain ⟨hpos, hle, done, task, m, htaken, hm, hconfig, hsent⟩ := hquery
  unfold configMessage at hconfig
  split at hconfig
  · rename_i hnames
    obtain ⟨current, hcurrent, hmessage⟩ := Option.bind_eq_some_iff.mp hconfig
    unfold DApp.contConfigSDN
    rw [if_pos hnames, hcurrent]
    simp only [if_pos hready, hmessage]
    refine ⟨⟨hpos, hle, ?_⟩, h.ledger⟩
    rw [htaken]
    exact List.rel_append hsent (.cons hm .nil)
  · cases hconfig

theorem of_queryTurn (h : s.Kept φ) (hok : Guarded φ s .queryTurn)
    (hstep : s.queryTurn φ = some t) : t.Kept φ := by
  have hquery := h.query
  unfold DApp.queryTurn at hstep
  simp only [Guarded] at hok
  cases hq : s.query with
  | idle =>
    rw [hq] at hstep hquery
    obtain ⟨hpos, hle, hsent⟩ := hquery
    simp only at hstep
    split at hstep
    · rename_i hlt
      cases hstep
      exact ⟨⟨hlt, hle, hsent⟩, h.ledger⟩
    · cases hstep
      exact h
  | answered nextTask =>
    rw [hq] at hstep
    cases hstep
    exact h.of_takeAnswer hq
  | overwriting =>
    rw [hq] at hstep hquery hok
    cases hstep
    have hle : s.ledger.length ≤ s.pending := hok
    exact ⟨⟨le_rfl, by simp only; omega, hquery.2.2⟩, h.ledger⟩
  | configuring param =>
    rw [hq] at hstep hok
    cases hstep
    exact h.of_contConfigSDN hq hok
  | clearing noTask =>
    rw [hq] at hstep hquery hok
    cases hstep
    obtain ⟨hpos, hle, hsent⟩ := hquery
    cases noTask with
    | false => exact ⟨⟨hpos, hle, hsent⟩, h.ledger⟩
    | true =>
      have hle : s.ledger.length ≤ s.pending := hok
      exact ⟨⟨le_rfl, by simp only [if_true]; omega, hsent⟩, h.ledger⟩
  | finishing =>
    rw [hq] at hstep hquery
    cases hstep
    obtain ⟨hpos, hle, hsent⟩ := hquery
    exact ⟨⟨by simp only; omega, by simp only; omega, hsent⟩, h.ledger⟩
  | querying | completing | dead =>
    rw [hq] at hstep
    cases hstep

theorem of_step (h : s.Kept φ) {e : Event} (hok : Guarded φ s e) (hstep : s.step φ e = some t) :
    t.Kept φ := by
  cases e with
  | enqueue task =>
    cases hstep
    exact h.of_enqueue hok
  | notify late => exact h.of_notify hok hstep
  | answer lost => exact h.of_answer hstep
  | complete confirmed =>
    subst hok
    exact h.of_complete hstep
  | initTurn => exact h.of_initTurn hstep
  | queryTurn => exact h.of_queryTurn hok hstep

end Kept

/-- In every run whose steps are guarded, no trigger is lost and every task is sent. -/
theorem keeps_triggers {events : List Event} (hok : Meets (step φ) (Guarded φ) .init events)
    (hrun : run (step φ) .init events = some s) : s.KeepsTriggers φ :=
  (run_invariant (P := Kept φ) (fun _ _ _ he hs ↦ hs.of_step he) hok kept_init hrun).keepsTriggers

/-- The DApp is set up, and then a task is queued, taken, sent and confirmed. -/
def oneTask : List Event :=
  [.initTurn, .initTurn, .enqueue "155.0.0.35,10,155.0.0.36,20".toList, .notify true, .queryTurn,
    .answer false, .queryTurn, .queryTurn, .complete true, .queryTurn, .queryTurn]

theorem oneTask_sent : ∃ s, run (step wholeFloat) .init oneTask = some s ∧
    s.sent = ["155.0.0.35,10.0,155.0.0.36,20.0".toList] ∧ s.KeepsTriggers wholeFloat := by
  have hok : Meets (step wholeFloat) (Guarded wholeFloat) .init oneTask := by decide +kernel
  have hsent : (run (step wholeFloat) .init oneTask).map (·.sent) =
      some ["155.0.0.35,10.0,155.0.0.36,20.0".toList] := by decide +kernel
  obtain ⟨s, hrun, hs⟩ := Option.map_eq_some_iff.mp hsent
  exact ⟨s, hrun, hs, keeps_triggers hok hrun⟩

/-- A task is queued between the answer that there is none and the reset of the trigger. -/
def lateTask : List Event :=
  [.initTurn, .initTurn, .initTurn, .queryTurn, .answer false,
    .enqueue "155.0.0.35,10,155.0.0.36,20".toList, .notify true, .queryTurn, .queryTurn, .queryTurn]

theorem not_keeps_every_trigger : ¬∀ (events : List Event) (s : DApp ℕ),
    run (step wholeFloat) .init events = some s → s.KeepsTriggers wholeFloat := by
  intro h
  have hrun : run (step wholeFloat) .init lateTask =
      some ⟨["155.0.0.35,10,155.0.0.36,20".toList], 0, ⟨2, true⟩, .finished, .idle, 0, .ready,
        [], []⟩ := rfl
  exact absurd ((h _ _ hrun).trigger (by decide) id rfl) (lt_irrefl 0)

theorem queryTurn_nonneg (hpos : 0 ≤ s.queryTrigger)
    (hprogress : s.query.InProgress → 0 < s.queryTrigger) (hstep : s.queryTurn φ = some t) :
    0 ≤ t.queryTrigger ∧ (t.query.InProgress → 0 < t.queryTrigger) := by
  unfold queryTurn at hstep
  cases hq : s.query with
  | idle =>
    rw [hq] at hstep
    simp only at hstep
    split at hstep
    · rename_i hlt
      cases hstep
      exact ⟨hpos, fun _ ↦ hlt⟩
    · cases hstep
      exact ⟨hpos, hprogress⟩
  | answered nextTask =>
    rw [hq] at hstep hprogress
    have hlt := hprogress trivial
    cases hstep
    unfold takeAnswer
    split
    · simp only
      split
      · exact ⟨Int.le_of_lt Int.zero_lt_one, fun _ ↦ Int.zero_lt_one⟩
      · exact ⟨hpos, fun _ ↦ hlt⟩
    · split
      · split <;> exact ⟨hpos, fun _ ↦ hlt⟩
      · exact ⟨hpos, fun _ ↦ hlt⟩
  | overwriting =>
    rw [hq] at hstep
    cases hstep
    exact ⟨Int.le_of_lt Int.zero_lt_one, fun _ ↦ Int.zero_lt_one⟩
  | configuring param =>
    rw [hq] at hstep hprogress
    have hlt := hprogress trivial
    cases hstep
    unfold contConfigSDN
    split
    · split
      · exact ⟨hpos, fun _ ↦ hlt⟩
      · split
        · split <;> exact ⟨hpos, fun _ ↦ hlt⟩
        · exact ⟨hpos, fun _ ↦ hlt⟩
    · exact ⟨hpos, fun _ ↦ hlt⟩
  | clearing noTask =>
    rw [hq] at hstep hprogress
    have hlt := hprogress trivial
    cases hstep
    simp only
    split
    · exact ⟨Int.le_of_lt Int.zero_lt_one, fun _ ↦ Int.zero_lt_one⟩
    · exact ⟨hpos, fun _ ↦ hlt⟩
  | finishing =>
    rw [hq] at hstep hprogress
    have hlt := hprogress trivial
    cases hstep
    exact ⟨Int.le_sub_one_of_lt hlt, False.elim⟩
  | querying | completing | dead =>
    rw [hq] at hstep
    cases hstep

/-- The trigger is never negative: a query starts when it is positive and no one else
lowers it. -/
theorem queryTrigger_nonneg {events : List Event} (hrun : run (step φ) .init events = some s) :
    0 ≤ s.queryTrigger ∧ (s.query.InProgress → 0 < s.queryTrigger) := by
  apply run_invariant (A := fun _ _ ↦ True)
    (P := fun s ↦ 0 ≤ s.queryTrigger ∧ (s.query.InProgress → 0 < s.queryTrigger)) _
    (meets_of_forall fun _ _ ↦ trivial) ⟨le_rfl, False.elim⟩ hrun
  rintro s e t - ⟨hpos, hprogress⟩ hstep
  cases e with
  | enqueue task =>
    cases hstep
    exact ⟨hpos, hprogress⟩
  | notify late =>
    simp only [step, notify] at hstep
    split at hstep
    · cases hstep
      simp only
      generalize (Notifier.update _ _).2 = counted
      cases counted with
      | false => exact ⟨hpos, hprogress⟩
      | true => exact ⟨Int.le_add_one hpos, fun _ ↦ Int.lt_add_one_of_le hpos⟩
    · cases hstep
  | answer lost =>
    simp only [step, answer] at hstep
    split at hstep
    · rename_i hq
      rw [hq] at hprogress
      split at hstep
      · cases hstep
        exact ⟨hpos, False.elim⟩
      · split at hstep <;> cases hstep <;> exact ⟨hpos, fun _ ↦ hprogress trivial⟩
    · cases hstep
  | complete confirmed =>
    simp only [step, complete] at hstep
    split at hstep
    · rename_i hq
      rw [hq] at hprogress
      split at hstep <;> cases hstep <;> exact ⟨hpos, fun _ ↦ hprogress trivial⟩
    · cases hstep
  | initTurn =>
    simp only [step, initTurn] at hstep
    split at hstep
    · split at hstep <;> cases hstep
      exact ⟨hpos, hprogress⟩
    · cases hstep
      exact ⟨hpos, hprogress⟩
    · cases hstep
      exact ⟨Int.le_add_one hpos, fun _ ↦ Int.lt_add_one_of_le hpos⟩
    · cases hstep
  | queryTurn => exact queryTurn_nonneg hpos hprogress hstep

end DApp

end EdgeSlice.Sdn.TaskTrigger
