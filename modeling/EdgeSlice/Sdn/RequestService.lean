import EdgeSlice.Sdn.RequestQueue
import Mathlib.Data.Prod.Lex

namespace EdgeSlice.Sdn.RequestQueue

variable {F : Type} (φ : FloatText F)

/-- A sent text that is a status line for a request. -/
def Answers (param : List (Param F)) (answer : ℕ × Text) : Prop :=
  ∃ sob, answer.2 = Server.statusLine φ sob (some param)

/-- The collector runs; what was queued is executed in order, and what was executed is
answered in order, with at most the last one still to be answered. -/
structure Server.Orderly (s : Server F) : Prop where
  collector : s.collector ≠ .dead
  executor : s.executor ≠ .dead
  executed : s.executed <+: s.queued
  answered : List.Forall₂ (Answers φ) (s.executed.take s.answers.length) s.answers
  outstanding : s.executed.length ≤ s.answers.length + 1

/-- An endless run in which the executor is scheduled again and again answers everything
that is in the queue at its start. -/
def Server.Releases (ok : Event → Prop) (s : Server F) : Prop :=
  ∀ b : Behaviour (Server.step φ) s, (∀ n, ok (b.event n)) →
    (∀ n, ∃ m ≥ n, (b.event m).thread = .executor) →
    ∃ m, s.queued.length ≤ (b.state m).answers.length

/-- The executor can take a step, or waits for the lock of the collector, which can. -/
def Server.Unblocked (s : Server F) : Prop :=
  (∃ e, e.thread = .executor ∧ (s.step φ e).isSome) ∨
    s.lock = some .collector ∧ (s.step φ (.turn .collector)).isSome

/-- A message taken for a request can be converted and is one for the executor too, and a
script prints its status. -/
def Serviceable : Event → Prop
  | .recv param1 =>
    IsRequest param1 → ∃ param, collectParam φ param1 = some param ∧ IsExecutable φ (some param)
  | .start output => ∃ line ∈ output, HasStatus line
  | .turn _ => True

def Collector.Holds : Collector F → Prop
  | .appending _ | .releasing => True
  | _ => False

def Collector.Ready : Collector F → Prop
  | .acquiring param | .appending param => IsExecutable φ (some param)
  | .receiving | .releasing => True
  | .dead => False

def Executor.Holds : Executor F → Prop
  | .slicing | .assigning _ | .releasing => True
  | _ => False

/-- With `popped` entries removed from the queue, the executor has started `executed` and
answered `answered` of the `queued` requests. -/
def Executor.Ready (queueParam : List (Entry F)) (popped queued executed answered : ℕ) :
    Executor F → Prop
  | .scanning | .releasing => executed = popped - 1 ∧ answered = popped - 1 ∧ popped ≤ queued + 1
  | .reading output =>
    (∃ line ∈ output, HasStatus line) ∧ 0 < popped ∧ executed = popped ∧ answered = popped - 1 ∧
      popped ≤ queued
  | .answering _ => 0 < popped ∧ executed = popped ∧ answered = popped - 1 ∧ popped ≤ queued
  | .acquiring | .slicing => executed = popped ∧ answered = popped ∧ popped ≤ queued
  | .assigning rest =>
    rest = queueParam.drop 1 ∧ executed = popped ∧ answered = popped ∧ popped ≤ queued
  | .dead => False

/-- The invariant of the serviceable runs, where `popped` entries have left the queue. -/
structure Server.Serving (s : Server F) (popped : ℕ) : Prop where
  collector : s.collector.Ready φ
  executor : s.executor.Ready s.queueParam popped s.queued.length s.executed.length
    s.answers.length
  collectorLock : s.collector.Holds ↔ s.lock = some .collector
  executorLock : s.executor.Holds ↔ s.lock = some .executor
  queue : s.queueParam = (none :: s.queued.map some).drop popped
  executable : ∀ param ∈ s.queued, IsExecutable φ (some param)
  executed : s.executed = s.queued.take s.executed.length
  answered : List.Forall₂ (Answers φ) (s.queued.take s.answers.length) s.answers

variable {φ} {s t : Server F} {popped : ℕ}

theorem not_isExecutable_none : ¬IsExecutable φ none := by
  unfold IsExecutable
  simp only [Entry.str]
  decide

namespace Server

theorem serving_init : (Server.init : Server F).Serving φ 0 where
  collector := trivial
  executor := ⟨rfl, rfl, Nat.zero_le _⟩
  collectorLock := ⟨fun h ↦ h.elim, nofun⟩
  executorLock := ⟨fun h ↦ h.elim, nofun⟩
  queue := rfl
  executable := nofun
  executed := rfl
  answered := .nil

namespace Serving

theorem length_queueParam (h : s.Serving φ popped) :
    s.queueParam.length = s.queued.length + 1 - popped := by
  rw [h.queue, List.length_drop, List.length_cons, List.length_map]

/-- The head of the queue is the empty string, or the request after those popped. -/
theorem queueParam_cons (h : s.Serving φ popped) {entry : Entry F} {rest : List (Entry F)}
    (hcons : s.queueParam = entry :: rest) :
    popped = 0 ∧ entry = none ∨
      ∃ k param, popped = k + 1 ∧ s.queued[k]? = some param ∧ entry = some param := by
  have hhead : (none :: s.queued.map some)[popped]? = some entry := by
    rw [← List.head?_drop, ← h.queue, hcons, List.head?_cons]
  cases popped with
  | zero => exact .inl ⟨rfl, (Option.some.inj hhead).symm⟩
  | succ k =>
    rw [List.getElem?_cons_succ, List.getElem?_map] at hhead
    obtain ⟨param, hparam, rfl⟩ := Option.map_eq_some_iff.mp hhead
    exact .inr ⟨k, param, rfl, hparam, rfl⟩

theorem counts (h : s.Serving φ popped) :
    s.executed.length ≤ s.answers.length + 1 ∧ s.answers.length ≤ s.executed.length ∧
      popped ≤ s.queued.length + 1 := by
  have hready := h.executor
  cases hx : s.executor with
  | scanning | acquiring | slicing | answering | assigning | releasing =>
    rw [hx] at hready
    simp only [Executor.Ready] at hready
    omega
  | reading output =>
    rw [hx] at hready
    obtain ⟨-, hready⟩ := hready
    omega
  | dead =>
    rw [hx] at hready
    exact hready.elim

theorem orderly (h : s.Serving φ popped) : s.Orderly φ := by
  obtain ⟨hbehind, hle, -⟩ := h.counts
  refine ⟨?_, ?_, ?_, ?_, hbehind⟩
  · intro hdead
    have := h.collector
    rw [hdead] at this
    exact this
  · intro hdead
    have := h.executor
    rw [hdead] at this
    exact this
  · rw [h.executed]
    apply List.take_prefix
  · rw [h.executed, List.take_take, Nat.min_eq_left hle]
    exact h.answered

theorem of_receive (h : s.Serving φ popped) {param1 : Text} (hok : Serviceable φ (.recv param1))
    (hstep : s.receive φ param1 = some t) : t.Serving φ popped := by
  unfold Server.receive at hstep
  cases hc : s.collector with
  | receiving =>
    rw [hc] at hstep
    simp only at hstep
    have hlock := h.collectorLock
    rw [hc] at hlock
    split at hstep
    · cases hstep
      exact { h with collector := trivial, collectorLock := hlock }
    · split at hstep
      · rename_i hreq
        obtain ⟨param, hparam, hexec⟩ := hok hreq
        rw [hparam] at hstep
        cases hstep
        exact { h with collector := hexec, collectorLock := hlock }
      · cases hstep
        exact h
  | _ =>
    rw [hc] at hstep
    cases hstep

theorem executor_ready_append {param : List (Param F)} (h : s.Serving φ popped)
    (hfree : ¬s.executor.Holds) :
    s.executor.Ready (s.queueParam ++ [some param]) popped (s.queued ++ [param]).length
      s.executed.length s.answers.length := by
  have hready := h.executor
  rw [List.length_append, List.length_singleton]
  cases hx : s.executor with
  | scanning | answering | acquiring =>
    rw [hx] at hready
    simp only [Executor.Ready] at hready ⊢
    omega
  | reading output =>
    rw [hx] at hready
    obtain ⟨hline, hready⟩ := hready
    exact ⟨hline, by omega⟩
  | slicing | assigning | releasing | dead =>
    rw [hx] at hready hfree
    first | exact absurd trivial hfree | exact hready.elim

theorem of_collectorTurn (h : s.Serving φ popped) (hstep : s.collectorTurn = some t) :
    t.Serving φ popped := by
  unfold Server.collectorTurn at hstep
  have hready := h.collector
  have hlock := h.collectorLock
  cases hc : s.collector with
  | acquiring param =>
    rw [hc] at hstep hready
    simp only at hstep
    split at hstep
    · rename_i hfree
      cases hstep
      refine { h with collector := hready, collectorLock := ?_, executorLock := ?_ }
      · exact ⟨fun _ ↦ rfl, fun _ ↦ trivial⟩
      · rw [h.executorLock, hfree]
        simp
    · cases hstep
  | appending param =>
    rw [hc] at hstep hready hlock
    simp only [Option.some.injEq] at hstep
    subst hstep
    have hheld : s.lock = some .collector := hlock.mp trivial
    have hfree : ¬s.executor.Holds := by
      rw [h.executorLock, hheld]
      simp
    obtain ⟨-, -, hpopped⟩ := h.counts
    refine { h with
      collector := trivial
      executor := executor_ready_append h hfree
      collectorLock := ⟨fun _ ↦ hheld, fun _ ↦ trivial⟩
      queue := ?_, executable := ?_, executed := ?_, answered := ?_ }
    · rw [h.queue, List.map_append, ← List.cons_append, List.drop_append_of_le_length]
      · rfl
      · simpa using hpopped
    · intro p hp
      rcases List.mem_append.mp hp with hp | hp
      · exact h.executable p hp
      · rw [List.mem_singleton.mp hp]
        exact hready
    · have hle : s.executed.length ≤ s.queued.length := by
        rw [h.executed]
        exact List.length_take_le' _ _
      rw [List.take_append_of_le_length hle]
      exact h.executed
    · have hle : s.answers.length ≤ s.queued.length := by
        rw [← h.answered.length_eq]
        exact List.length_take_le' _ _
      rw [List.take_append_of_le_length hle]
      exact h.answered
  | releasing =>
    rw [hc] at hstep hlock
    cases hstep
    refine { h with collector := trivial, collectorLock := ?_, executorLock := ?_ }
    · exact ⟨fun h ↦ h.elim, nofun⟩
    · rw [h.executorLock, hlock.mp trivial]
      simp
  | receiving | dead =>
    rw [hc] at hstep
    cases hstep

theorem of_start (h : s.Serving φ popped) {output : List Text} (hok : Serviceable φ (.start output))
    (hstep : s.start φ output = some t) : t.Serving φ popped := by
  unfold Server.start at hstep
  have hready := h.executor
  have hlock := h.executorLock
  split at hstep
  · rename_i param rest hx hcons
    split at hstep
    · cases hstep
      rw [hx] at hready hlock
      obtain ⟨hexecuted, hanswered, -⟩ := hready
      obtain ⟨-, hnone⟩ | ⟨k, p, rfl, hp, heq⟩ := h.queueParam_cons hcons
      · cases hnone
      · cases heq
        have hk : k < s.queued.length := (List.getElem?_eq_some_iff.mp hp).1
        have hlen : (s.executed ++ [param]).length = k + 1 := by
          rw [List.length_append, List.length_singleton, hexecuted, Nat.add_sub_cancel]
        refine { h with executor := ?_, executorLock := hlock, executed := ?_ }
        · exact ⟨hok, Nat.succ_pos k, hlen, hanswered, hk⟩
        · simp only [hlen]
          rw [List.take_add_one, hp, h.executed, hexecuted]
          rfl
    · cases hstep
  · cases hstep

theorem of_answer (h : s.Serving φ popped) {sob : Text} {entry : Entry F} {rest : List (Entry F)}
    (hx : s.executor = .answering sob) (hcons : s.queueParam = entry :: rest) :
    ({ s with executor := .acquiring
              answers := s.answers ++ [(s.controller, statusLine φ sob entry)] } :
      Server F).Serving φ popped := by
  have hready := h.executor
  have hlock := h.executorLock
  rw [hx] at hready hlock
  obtain ⟨hpos, hexecuted, hanswered, hle⟩ := hready
  obtain ⟨rfl, -⟩ | ⟨k, p, rfl, hp, rfl⟩ := h.queueParam_cons hcons
  · cases hpos
  · rw [Nat.add_sub_cancel] at hanswered
    have hlen : (s.answers ++ [(s.controller, statusLine φ sob (some p))]).length = k + 1 := by
      rw [List.length_append, List.length_singleton, hanswered]
    refine { h with executor := ?_, executorLock := hlock, answered := ?_ }
    · exact ⟨hexecuted, hlen, hle⟩
    · simp only [hlen]
      rw [List.take_add_one, hp]
      have hanswers := h.answered
      rw [hanswered] at hanswers
      exact List.rel_append hanswers (.cons ⟨sob, rfl⟩ .nil)

theorem of_executorTurn (h : s.Serving φ popped) (hstep : s.executorTurn φ = some t) :
    t.Serving φ popped ∨ t.Serving φ (popped + 1) := by
  unfold Server.executorTurn at hstep
  have hready := h.executor
  have hlock := h.executorLock
  cases hx : s.executor with
  | scanning =>
    rw [hx] at hstep hready hlock
    simp only at hstep
    split at hstep
    · cases hstep
      exact .inl h
    · rename_i entry rest hcons
      split at hstep
      · cases hstep
      · rename_i hdropped
        cases hstep
        obtain ⟨rfl, -⟩ | ⟨k, p, rfl, hp, rfl⟩ := h.queueParam_cons hcons
        · refine .inl { h with executor := ?_, executorLock := hlock }
          exact ⟨hready.1, hready.2.1, Nat.zero_le _⟩
        · exact absurd (h.executable p (List.mem_of_getElem? hp)) hdropped
  | reading output =>
    rw [hx] at hstep hready hlock
    cases output with
    | nil => obtain ⟨⟨line, hline, -⟩, -⟩ := hready; cases hline
    | cons sobTest output =>
      simp only at hstep
      obtain ⟨⟨line, hline, hstatus⟩, hcounts⟩ := hready
      split at hstep
      · cases hstep
        exact .inl { h with executor := hcounts, executorLock := hlock }
      · rename_i hnot
        cases hstep
        refine .inl { h with executor := ⟨⟨line, ?_, hstatus⟩, hcounts⟩, executorLock := hlock }
        rcases List.mem_cons.mp hline with rfl | hline
        · exact absurd hstatus hnot
        · exact hline
  | answering sob =>
    rw [hx] at hstep hready
    simp only at hstep
    split at hstep
    · rename_i hnil
      have hlen := h.length_queueParam
      rw [hnil, List.length_nil] at hlen
      have hle : popped ≤ s.queued.length := hready.2.2.2
      omega
    · rename_i entry rest hcons
      cases hstep
      exact .inl (h.of_answer hx hcons)
  | acquiring =>
    rw [hx] at hstep hready
    simp only at hstep
    split at hstep
    · rename_i hfree
      cases hstep
      refine .inl { h with executor := hready, collectorLock := ?_, executorLock := ?_ }
      · rw [h.collectorLock, hfree]
        simp
      · exact ⟨fun _ ↦ rfl, fun _ ↦ trivial⟩
    · cases hstep
  | slicing =>
    rw [hx] at hstep hready hlock
    cases hstep
    exact .inl { h with executor := ⟨rfl, hready⟩, executorLock := hlock }
  | assigning rest =>
    rw [hx] at hstep hready hlock
    cases hstep
    obtain ⟨rfl, hexecuted, hanswered, hle⟩ := hready
    refine .inr { h with executor := ?_, executorLock := hlock, queue := ?_ }
    · exact ⟨hexecuted, hanswered, Nat.succ_le_succ hle⟩
    · simp only [h.queue, List.drop_drop]
  | releasing =>
    rw [hx] at hstep hready hlock
    cases hstep
    refine .inl { h with executor := hready, collectorLock := ?_, executorLock := ?_ }
    · rw [h.collectorLock, hlock.mp trivial]
      simp
    · exact ⟨fun h ↦ h.elim, nofun⟩
  | dead =>
    rw [hx] at hready
    exact hready.elim

theorem of_step (h : ∃ popped, s.Serving φ popped) {e : Event} (hok : Serviceable φ e)
    (hstep : s.step φ e = some t) : ∃ popped, t.Serving φ popped := by
  obtain ⟨popped, h⟩ := h
  cases e with
  | recv param1 => exact ⟨popped, h.of_receive hok hstep⟩
  | start output => exact ⟨popped, h.of_start hok hstep⟩
  | turn thread =>
    cases thread with
    | collector => exact ⟨popped, h.of_collectorTurn hstep⟩
    | executor => exact (h.of_executorTurn hstep).elim (⟨popped, ·⟩) (⟨popped + 1, ·⟩)

end Serving

end Server

/-- How far the executor is from the end of its cycle. -/
def Executor.phase : Executor F → ℕ
  | .releasing => 7
  | .scanning => 6
  | .reading _ => 5
  | .answering _ => 4
  | .acquiring => 3
  | .slicing => 2
  | .assigning _ => 1
  | .dead => 0

def Executor.lines : Executor F → ℕ
  | .reading output => output.length
  | _ => 0

namespace Server

/-- What is left to do before the first `n` requests are answered: entries to be popped,
the phase of the executor, and lines to be read. -/
def variant (n : ℕ) (s : Server F) : ℕ ×ₗ ℕ ×ₗ ℕ :=
  toLex (n + s.queueParam.length - s.queued.length, toLex (s.executor.phase, s.executor.lines))

theorem variant_lt {n : ℕ} (h : n + t.queueParam.length - t.queued.length <
      n + s.queueParam.length - s.queued.length ∨
    t.queueParam = s.queueParam ∧ t.queued = s.queued ∧
      (t.executor.phase < s.executor.phase ∨
        t.executor.phase = s.executor.phase ∧ t.executor.lines < s.executor.lines)) :
    t.variant n < s.variant n := by
  unfold variant
  rw [Prod.Lex.toLex_lt_toLex, Prod.Lex.toLex_lt_toLex]
  rcases h with h | ⟨hparam, hqueued, h⟩
  · exact .inl h
  · exact .inr ⟨by rw [hparam, hqueued], h⟩

theorem receive_same {param1 : Text} (hstep : s.receive φ param1 = some t) :
    t.executor = s.executor ∧ t.answers = s.answers ∧ t.queueParam = s.queueParam ∧
      t.queued = s.queued := by
  unfold receive at hstep
  split at hstep
  · split at hstep
    · cases hstep
      exact ⟨rfl, rfl, rfl, rfl⟩
    · split at hstep
      · split at hstep <;> cases hstep <;> exact ⟨rfl, rfl, rfl, rfl⟩
      · cases hstep
        exact ⟨rfl, rfl, rfl, rfl⟩
  · cases hstep

theorem collectorTurn_same (hstep : s.collectorTurn = some t) :
    t.executor = s.executor ∧ t.answers = s.answers ∧
      (t.queueParam = s.queueParam ∧ t.queued = s.queued ∨
        ∃ param, t.queueParam = s.queueParam ++ [some param] ∧ t.queued = s.queued ++ [param]) := by
  unfold collectorTurn at hstep
  split at hstep
  · split at hstep
    · cases hstep
      exact ⟨rfl, rfl, .inl ⟨rfl, rfl⟩⟩
    · cases hstep
  · cases hstep
    exact ⟨rfl, rfl, .inr ⟨_, rfl, rfl⟩⟩
  · cases hstep
    exact ⟨rfl, rfl, .inl ⟨rfl, rfl⟩⟩
  all_goals cases hstep

/-- The collector only appends to the queue. -/
theorem collector_same {e : Event} (he : e.thread = .collector) (hstep : s.step φ e = some t) :
    t.executor = s.executor ∧ t.answers = s.answers ∧
      (t.queueParam = s.queueParam ∧ t.queued = s.queued ∨
        ∃ param, t.queueParam = s.queueParam ++ [some param] ∧ t.queued = s.queued ++ [param]) := by
  cases e with
  | recv param1 =>
    obtain ⟨hx, hanswers, hparam⟩ := receive_same hstep
    exact ⟨hx, hanswers, .inl hparam⟩
  | start output => cases he
  | turn thread =>
    cases thread with
    | collector => exact collectorTurn_same hstep
    | executor => cases he

theorem collector_variant (n : ℕ) {e : Event} (he : e.thread = .collector)
    (hstep : s.step φ e = some t) : t.variant n = s.variant n := by
  obtain ⟨hx, -, ⟨hparam, hqueued⟩ | ⟨param, hparam, hqueued⟩⟩ := collector_same he hstep
  · rw [variant, variant, hx, hparam, hqueued]
  · have hlen : n + t.queueParam.length - t.queued.length =
        n + s.queueParam.length - s.queued.length := by
      rw [hparam, hqueued, List.length_append, List.length_append]
      simp only [List.length_singleton]
      omega
    rw [variant, variant, hx, hlen]

theorem start_same {output : List Text} (hstep : s.start φ output = some t) :
    t.queueParam = s.queueParam ∧ t.queued = s.queued ∧
      t.executor.phase < s.executor.phase := by
  unfold start at hstep
  split at hstep
  · rename_i hx _
    split at hstep
    · cases hstep
      rw [hx]
      exact ⟨rfl, rfl, Nat.lt_succ_self 5⟩
    · cases hstep
  · cases hstep

/-- A turn of the executor makes progress while one of `n` queued requests is unanswered. -/
theorem executorTurn_variant {n : ℕ} (h : s.Serving φ popped) (hn : n ≤ s.queued.length)
    (hgoal : ¬n ≤ s.answers.length) (hstep : s.executorTurn φ = some t) :
    t.variant n < s.variant n := by
  unfold executorTurn at hstep
  have hready := h.executor
  have hlen := h.length_queueParam
  apply variant_lt
  cases hx : s.executor with
  | scanning =>
    rw [hx] at hstep hready
    simp only at hstep
    split at hstep
    · rename_i hnil
      rw [hnil, List.length_nil] at hlen
      obtain ⟨-, hanswered, -⟩ := hready
      omega
    · split at hstep
      · cases hstep
      · cases hstep
        exact .inr ⟨rfl, rfl, .inl (show 3 < 6 by decide)⟩
  | reading output =>
    rw [hx] at hstep hready
    cases output with
    | nil => obtain ⟨⟨line, hline, -⟩, -⟩ := hready; cases hline
    | cons sobTest output =>
      simp only at hstep
      split at hstep
      · cases hstep
        exact .inr ⟨rfl, rfl, .inl (Nat.lt_succ_self 4)⟩
      · cases hstep
        exact .inr ⟨rfl, rfl, .inr ⟨rfl, Nat.lt_succ_self _⟩⟩
  | answering sob =>
    rw [hx] at hstep
    simp only at hstep
    split at hstep <;> cases hstep
    · exact .inr ⟨rfl, rfl, .inl (Nat.succ_pos 3)⟩
    · exact .inr ⟨rfl, rfl, .inl (Nat.lt_succ_self 3)⟩
  | acquiring =>
    rw [hx] at hstep
    simp only at hstep
    split at hstep
    · cases hstep
      exact .inr ⟨rfl, rfl, .inl (Nat.lt_succ_self 2)⟩
    · cases hstep
  | slicing =>
    rw [hx] at hstep
    cases hstep
    exact .inr ⟨rfl, rfl, .inl (Nat.lt_succ_self 1)⟩
  | assigning rest =>
    rw [hx] at hstep hready
    cases hstep
    obtain ⟨rfl, hexecuted, hanswered, hle⟩ := hready
    apply Or.inl
    simp only [List.length_drop]
    omega
  | releasing =>
    rw [hx] at hstep
    cases hstep
    exact .inr ⟨rfl, rfl, .inl (Nat.lt_succ_self 6)⟩
  | dead =>
    rw [hx] at hready
    exact hready.elim

theorem executor_variant {n : ℕ} (h : s.Serving φ popped) (hn : n ≤ s.queued.length)
    (hgoal : ¬n ≤ s.answers.length) {e : Event} (he : e.thread = .executor)
    (hstep : s.step φ e = some t) : t.variant n < s.variant n := by
  cases e with
  | recv param1 => cases he
  | start output =>
    obtain ⟨hparam, hqueued, hphase⟩ := start_same hstep
    exact variant_lt (.inr ⟨hparam, hqueued, .inl hphase⟩)
  | turn thread =>
    cases thread with
    | collector => cases he
    | executor => exact executorTurn_variant h hn hgoal hstep

theorem executorTurn_queued (hstep : s.executorTurn φ = some t) : t.queued = s.queued := by
  unfold executorTurn at hstep
  split at hstep
  · split at hstep
    · cases hstep
      rfl
    · split at hstep <;> cases hstep
      rfl
  · cases hstep
    rfl
  · split at hstep <;> cases hstep <;> rfl
  · split at hstep <;> cases hstep <;> rfl
  · split at hstep <;> cases hstep
    rfl
  all_goals cases hstep; try rfl

theorem queued_le {e : Event} (hstep : s.step φ e = some t) :
    s.queued.length ≤ t.queued.length := by
  cases he : e.thread with
  | collector =>
    obtain ⟨-, -, ⟨-, hqueued⟩ | ⟨param, -, hqueued⟩⟩ := collector_same he hstep
    · rw [hqueued]
    · rw [hqueued, List.length_append]
      exact Nat.le_add_right _ _
  | executor =>
    cases e with
    | recv param1 => cases he
    | start output => rw [(start_same hstep).2.1]
    | turn thread =>
      cases he
      rw [executorTurn_queued hstep]

theorem Serving.releases (h : s.Serving φ popped) : s.Releases φ (Serviceable φ) := by
  intro b hok hfair
  have hserving : ∀ n, (∃ popped, (b.state n).Serving φ popped) ∧
      s.queued.length ≤ (b.state n).queued.length := by
    apply b.invariant (P := fun r ↦ (∃ popped, r.Serving φ popped) ∧
      s.queued.length ≤ r.queued.length) _ hok ⟨⟨popped, h⟩, le_rfl⟩
    rintro r e r' he ⟨hr, hle⟩ hstep
    exact ⟨Serving.of_step hr he hstep, hle.trans (queued_le hstep)⟩
  have hlower : ∀ n, ¬s.queued.length ≤ (b.state n).answers.length →
      (b.event n).thread = .executor →
        (b.state (n + 1)).variant s.queued.length < (b.state n).variant s.queued.length := by
    intro n hgoal he
    obtain ⟨⟨p, hp⟩, hle⟩ := hserving n
    exact executor_variant hp hle hgoal he (b.next n)
  have hkeep : ∀ n, ¬s.queued.length ≤ (b.state n).answers.length →
      (b.state (n + 1)).variant s.queued.length ≤ (b.state n).variant s.queued.length := by
    intro n hgoal
    cases he : (b.event n).thread with
    | collector => exact (collector_variant _ he (b.next n)).le
    | executor => exact (hlower n hgoal he).le
  obtain ⟨m, -, hm⟩ := b.eventually (P := fun r ↦ s.queued.length ≤ r.answers.length)
    (Q := fun e ↦ e.thread = .executor) (variant s.queued.length) hfair
    (fun n hgoal ↦ .inr (hkeep n hgoal)) (fun n hgoal he ↦ .inr (hlower n hgoal he)) 0
  exact ⟨m, hm⟩

theorem Serving.unblocked (h : s.Serving φ popped) : s.Unblocked φ := by
  have hready := h.executor
  have hlen := h.length_queueParam
  cases hx : s.executor with
  | scanning =>
    apply Or.inl
    cases hcons : s.queueParam with
    | nil =>
      refine ⟨.turn .executor, rfl, ?_⟩
      simp only [step, executorTurn, hx, hcons, Option.isSome_some]
    | cons entry rest =>
      by_cases hexec : IsExecutable φ entry
      · cases entry with
        | none => exact absurd hexec not_isExecutable_none
        | some param =>
          refine ⟨.start [], rfl, ?_⟩
          simp only [step, start, hx, hcons, if_pos hexec, Option.isSome_some]
      · refine ⟨.turn .executor, rfl, ?_⟩
        simp only [step, executorTurn, hx, hcons, if_neg hexec, Option.isSome_some]
  | reading output =>
    refine .inl ⟨.turn .executor, rfl, ?_⟩
    cases output with
    | nil => simp only [step, executorTurn, hx, Option.isSome_some]
    | cons sobTest output =>
      by_cases hstatus : HasStatus sobTest
      · simp only [step, executorTurn, hx, if_pos hstatus, Option.isSome_some]
      · simp only [step, executorTurn, hx, if_neg hstatus, Option.isSome_some]
  | answering sob =>
    refine .inl ⟨.turn .executor, rfl, ?_⟩
    cases hcons : s.queueParam with
    | nil => simp only [step, executorTurn, hx, hcons, Option.isSome_some]
    | cons entry rest => simp only [step, executorTurn, hx, hcons, Option.isSome_some]
  | acquiring =>
    cases hlock : s.lock with
    | none =>
      refine .inl ⟨.turn .executor, rfl, ?_⟩
      simp only [step, executorTurn, hx, if_pos hlock, Option.isSome_some]
    | some holder =>
      cases holder with
      | collector =>
        refine .inr ⟨hlock, ?_⟩
        have hholds := h.collectorLock.mpr hlock
        cases hc : s.collector with
        | appending | releasing => simp only [step, collectorTurn, hc, Option.isSome_some]
        | receiving | acquiring | dead =>
          rw [hc] at hholds
          exact hholds.elim
      | executor =>
        have hholds := h.executorLock.mpr hlock
        rw [hx] at hholds
        exact hholds.elim
  | slicing | assigning | releasing =>
    refine .inl ⟨.turn .executor, rfl, ?_⟩
    simp only [step, executorTurn, hx, Option.isSome_some]
  | dead =>
    rw [hx] at hready
    exact hready.elim

/-- In every run whose events are serviceable, every request is executed and answered once
and in order, and the executor goes on until all that was queued is answered. -/
theorem serves_requests {events : List Event}
    (hok : ∀ e ∈ events, Serviceable φ e) (hrun : run (step φ) .init events = some s) :
    s.Orderly φ ∧ s.Unblocked φ ∧ s.Releases φ (Serviceable φ) := by
  obtain ⟨popped, h⟩ := run_invariant (P := fun s ↦ ∃ popped, s.Serving φ popped)
    (fun s e t he hs ↦ Serving.of_step hs he) (meets_of_forall hok)
    ⟨0, serving_init⟩ hrun
  exact ⟨h.orderly, h.unblocked, h.releases⟩

end Server

/-- The floating point numbers that are whole and have few digits. -/
def wholeFloat : FloatText ℕ where
  float t :=
    let digits := if ['.', '0'] <:+ t then t.dropLast.dropLast else t
    if digits ≠ [] ∧ digits.all Char.isDigit then
      some (digits.foldl (fun n c ↦ 10 * n + (c.toNat - 48)) 0)
    else none
  str n := Nat.toDigits 10 n ++ ['.', '0']
  repr n := Nat.toDigits 10 n ++ ['.', '0']

/-- A request is queued, the executor drops the empty string and serves the request. -/
def oneRequest : List Event :=
  [.recv "155.0.0.36,10,155.0.0.35,20".toList] ++ List.replicate 3 (.turn .collector) ++
    List.replicate 5 (.turn .executor) ++ [.start ["Topology\n".toList, "Complete!\n".toList]] ++
    List.replicate 7 (.turn .executor)

theorem oneRequest_served : ∃ s, run (Server.step wholeFloat) .init oneRequest = some s ∧
    s.answers = [(0, "COMPLETE:155.0.0.36,10.0,155.0.0.35,20.0".toList)] ∧
    s.Orderly wholeFloat ∧ s.Unblocked wholeFloat ∧
      s.Releases wholeFloat (Serviceable wholeFloat) := by
  have hok : ∀ e ∈ oneRequest, Serviceable wholeFloat e := by
    intro e he
    simp only [oneRequest, List.mem_append, List.mem_singleton, List.mem_replicate] at he
    rcases he with (((rfl | ⟨-, rfl⟩) | ⟨-, rfl⟩) | rfl) | ⟨-, rfl⟩
    · exact fun _ ↦ ⟨_, rfl, by decide +kernel⟩
    · trivial
    · trivial
    · exact ⟨_, List.mem_cons_of_mem _ List.mem_cons_self, by decide⟩
    · trivial
  have hanswers : (run (Server.step wholeFloat) .init oneRequest).map (·.answers) =
      some [(0, "COMPLETE:155.0.0.36,10.0,155.0.0.35,20.0".toList)] := by decide +kernel
  obtain ⟨s, hrun, hs⟩ := Option.map_eq_some_iff.mp hanswers
  exact ⟨s, hrun, hs, Server.serves_requests hok hrun⟩

/-- A number that is none ends the collector. -/
theorem not_serves_every_request : ¬∀ (events : List Event) (s : Server ℕ),
    run (Server.step wholeFloat) .init events = some s →
      s.Orderly wholeFloat ∧ s.Unblocked wholeFloat ∧ s.Releases wholeFloat fun _ ↦ True := by
  intro h
  have hrun : run (Server.step wholeFloat) .init [.recv "155.0.0.36,abc".toList] =
      some { Server.init with collector := .dead } := rfl
  exact (h _ _ hrun).1.collector rfl

namespace Server

theorem receive_dead {param1 : Text} (hc : s.collector = .receiving) (hreq : IsRequest param1)
    (hparam : collectParam φ param1 = none) :
    s.receive φ param1 = some { s with collector := .dead } := by
  have hlen : param1.length ≠ 0 := by
    rintro hzero
    rw [List.length_eq_zero_iff] at hzero
    subst hzero
    revert hreq
    decide
  rw [receive, hc]
  simp only [if_neg hlen, if_pos hreq, hparam]

/-- Nothing ends the wait for the status of a script that has printed its last line. -/
theorem reading_nil {events : List Event} (hx : s.executor = .reading [])
    (hrun : run (step φ) s events = some t) : t.executor = .reading [] ∧ t.answers = s.answers := by
  apply run_invariant (P := fun r ↦ r.executor = .reading [] ∧ r.answers = s.answers)
    (A := fun _ _ ↦ True) _ (meets_of_forall fun _ _ ↦ trivial) ⟨hx, rfl⟩ hrun
  rintro r e r' - ⟨hr, hanswers⟩ hstep
  cases he : e.thread with
  | collector =>
    obtain ⟨hx', hanswers', -⟩ := collector_same he hstep
    exact ⟨hx'.trans hr, hanswers'.trans hanswers⟩
  | executor =>
    cases e with
    | recv param1 => cases he
    | start output =>
      rw [step, start, hr] at hstep
      cases hstep
    | turn thread =>
      cases he
      rw [step, executorTurn, hr] at hstep
      cases hstep
      exact ⟨hr, hanswers⟩

end Server

end EdgeSlice.Sdn.RequestQueue
