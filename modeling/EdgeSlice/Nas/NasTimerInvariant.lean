import EdgeSlice.Nas.NasTimer
import Mathlib.Data.Fintype.Card
import Mathlib.Logic.Function.Defs

/-! What the operations on the timer database do to its queue. -/

namespace EdgeSlice.Nas

variable {γ α : Type*}

/-- A value that is put behind all that are not greater. -/
theorem pairwise_takeWhile_dropWhile {ι : Type*} {f : ι → ℕ} {l : List ι} (i : ι)
    (h : l.Pairwise fun a b ↦ f a ≤ f b) :
    (l.takeWhile (f · ≤ f i) ++ i :: l.dropWhile (f · ≤ f i)).Pairwise fun a b ↦ f a ≤ f b := by
  induction l with
  | nil => simp
  | cons a l ih =>
    obtain ⟨ha, hl⟩ := List.pairwise_cons.mp h
    by_cases hai : f a ≤ f i
    · rw [List.takeWhile_cons_of_pos (by simpa using hai), List.dropWhile_cons_of_pos (by simpa using hai),
        List.cons_append, List.pairwise_cons]
      refine ⟨fun b hb ↦ ?_, ih hl⟩
      rcases List.mem_append.mp hb with hb | hb
      · exact ha b ((List.takeWhile_prefix _).subset hb)
      · rcases List.mem_cons.mp hb with rfl | hb
        · exact hai
        · exact ha b ((List.dropWhile_suffix _).subset hb)
    · rw [List.takeWhile_cons_of_neg (by simpa using hai), List.dropWhile_cons_of_neg (by simpa using hai),
        List.nil_append, List.pairwise_cons]
      refine ⟨fun b hb ↦ ?_, h⟩
      have hia : f i ≤ f a := (Nat.lt_of_not_le hai).le
      rcases List.mem_cons.mp hb with rfl | hb
      · exact hia
      · exact hia.trans (ha b hb)

theorem mem_takeWhile_dropWhile {ι : Type*} (f : ι → Bool) (l : List ι) (i a : ι) :
    a ∈ l.takeWhile f ++ i :: l.dropWhile f ↔ a = i ∨ a ∈ l := by
  have hl : a ∈ l ↔ a ∈ l.takeWhile f ∨ a ∈ l.dropWhile f := by
    rw [← List.mem_append, List.takeWhile_append_dropWhile]
  rw [List.mem_append, List.mem_cons, hl]
  tauto

def TimeVal.micros (tv : TimeVal) : ℕ := tv.tvSec * 1000000 + tv.tvUsec

theorem nasTimerCmp_pos_iff {a b : TimeVal} (ha : a.tvUsec < 1000000) (hb : b.tvUsec < 1000000) :
    0 < _nasTimerCmp a b ↔ b.micros < a.micros := by
  unfold _nasTimerCmp TimeVal.micros
  split_ifs
  · exact iff_of_false (by decide) (by omega)
  · exact iff_of_true (by decide) (by omega)
  · exact iff_of_false (by decide) (by omega)
  · exact iff_of_true (by decide) (by omega)
  · exact iff_of_false (by decide) (by omega)

theorem nasTimerAdd_sec (sec : ℕ) (now : Clock) :
    _nasTimerAdd ⟨sec, 0⟩ ⟨now.sec, now.usec⟩ = ⟨sec + now.sec, now.usec⟩ := by
  have husec := now.usec_lt
  unfold _nasTimerAdd
  simp only [Nat.zero_add]
  exact if_neg (by omega)

namespace NasTimerDatabase

variable {db : NasTimerDatabase γ α} {i : TimerId} {l xs ys : List TimerId}

/-- An entry is taken that is free, and none only when all are in use. -/
theorem getId_cases (db : NasTimerDatabase γ α) :
    db._nasTimerDbGetId = none ∧ (∀ i, db.id i ≠ none) ∨
      ∃ i, db._nasTimerDbGetId = some (i, { db with timerId := i.val + 1 }) ∧ db.id i = none := by
  unfold _nasTimerDbGetId
  simp only
  cases hfrom : (List.finRange TIMER_DATABASE_SIZE).find?
      (fun i ↦ decide (db.timerId ≤ i.val) && (db.id i).isNone) with
  | some i =>
    have hi := List.find?_some hfrom
    simp only [Bool.and_eq_true, Option.isNone_iff_eq_none] at hi
    exact .inr ⟨i, rfl, hi.2⟩
  | none =>
    cases hbefore : (List.finRange TIMER_DATABASE_SIZE).find?
        (fun i ↦ decide (i.val < db.timerId) && (db.id i).isNone) with
    | some i =>
      have hi := List.find?_some hbefore
      simp only [Bool.and_eq_true, Option.isNone_iff_eq_none] at hi
      exact .inr ⟨i, rfl, hi.2⟩
    | none =>
      refine .inl ⟨rfl, fun i hi ↦ ?_⟩
      have hfrom := List.find?_eq_none.mp hfrom i (List.mem_finRange i)
      have hbefore := List.find?_eq_none.mp hbefore i (List.mem_finRange i)
      simp only [hi, Option.isNone_none, Bool.and_true, decide_eq_true_eq] at hfrom hbefore
      omega

theorem length_le (h : db.links.Queue l) : l.length ≤ TIMER_DATABASE_SIZE := by
  have hcard := h.nodup.length_le_card
  rwa [Fintype.card_fin] at hcard

/-- The entry that is inserted for `i`. -/
def inserted (te : NasTimerEntry γ α) (now : Clock) : NasTimerEntry γ α :=
  { te with tv := _nasTimerAdd te.tv ⟨now.sec, now.usec⟩ }

/-- An entry goes behind all that do not expire later. `due` is when the entries expire. -/
theorem insertEntry_eq {te : NasTimerEntry γ α} {now : Clock} (due : TimerId → ℕ)
    (h : db.links.Queue l) (hi : i ∉ l) (hself : (inserted te now).tv.micros = due i)
    (hself' : (inserted te now).tv.tvUsec < 1000000)
    (hdue : ∀ a ∈ l, ∃ ta, db.entry a = some ta ∧ ta.tv.micros = due a ∧ ta.tv.tvUsec < 1000000) :
    ∃ links, db._nasTimerDbInsertEntry i te now =
        some ⟨db.timerId, Function.update db.id i (some i),
          Function.update db.entry i (some (inserted te now)), links⟩ ∧
      links.Queue (l.takeWhile (due · ≤ due i) ++ i :: l.dropWhile (due · ≤ due i)) := by
  have hstop : ∀ a ∈ l, (Function.update db.entry i (some (inserted te now)) a).map
      (fun next ↦ decide (0 < _nasTimerCmp next.tv (inserted te now).tv)) =
        some (decide (due i < due a)) := by
    intro a ha
    obtain ⟨ta, hta, hmicros, husec⟩ := hdue a ha
    have hne : a ≠ i := fun heq ↦ hi (heq ▸ ha)
    simp only [Function.update_of_ne hne, hta, Option.map_some, nasTimerCmp_pos_iff husec hself',
      hmicros, hself]
  have hsearch := h.stretch.search_eq (length_le h) hstop
  rw [← h.head] at hsearch
  have hflip : (fun a ↦ !decide (due i < due a)) = fun a ↦ decide (due a ≤ due i) := by
    funext a
    rw [← decide_not]
    exact decide_eq_decide.mpr Nat.not_lt
  rw [hflip] at hsearch
  refine ⟨db.links.insert i (l.takeWhile (due · ≤ due i)).getLast? (l.dropWhile (due · ≤ due i)).head?,
    ?_, ?_⟩
  · unfold _nasTimerDbInsertEntry _nasTimerDbInsert
    simp only [Function.update_self, Option.bind_some]
    have hsearch' := congrArg (Option.map fun p ↦
      NasTimerDatabase.mk db.timerId (Function.update db.id i (some i))
        (Function.update db.entry i (some (inserted te now))) (db.links.insert i p.1 p.2)) hsearch
    simp only [Option.map_some, Option.or_none] at hsearch'
    exact hsearch'
  · rw [← List.takeWhile_append_dropWhile (p := (due · ≤ due i)) (l := l)] at h hi
    exact h.insert hi

end NasTimerDatabase

namespace NasTimers

variable {timers : NasTimers γ α} {i j : TimerId} {te : NasTimerEntry γ α} {xs ys : List TimerId}

/-- The database without an entry in its queue. -/
def unlinked (timers : NasTimers γ α) (i : TimerId) : NasTimerDatabase γ α :=
  { timers.db with links := timers.db.links.remove i }

theorem head_remove (h : timers.db.links.Queue (xs ++ i :: ys)) :
    (timers.db.links.remove i).head = (xs ++ ys).head? :=
  h.remove.head

theorem prev_eq (h : timers.db.links.Queue (xs ++ i :: ys)) :
    timers.db.links.prev i = xs.getLast? := by
  have hprev := (Links.stretch_append.mp h.stretch).2.1
  rwa [Option.or_none] at hprev

/-- An entry that is alone, or not the first one, is removed with no effect on the system timers. -/
theorem removeEntry_eq (h : timers.db.links.Queue (xs ++ i :: ys)) (hfirst : xs = [] → ys = [])
    (hid : timers.db.id i = some i) (hentry : timers.db.entry i = some te) :
    timers._nasTimerDbRemoveEntry i = some (te, ⟨timers.unlinked i, timers.system⟩) := by
  have hrestart : (timers.db._nasTimerDbRemove i).1 = false := by
    simp only [NasTimerDatabase._nasTimerDbRemove, prev_eq h, head_remove h]
    cases xs with
    | nil =>
      rw [hfirst rfl]
      rfl
    | cons x xs => simp [List.getLast?_cons]
  unfold _nasTimerDbRemoveEntry
  simp only [hid, if_true, hrestart, Bool.false_eq_true, if_false, Option.bind_some]
  simp only [NasTimerDatabase._nasTimerDbRemove, hentry, Option.map_some]
  rfl

/-- With the first of several entries the system timer of the second one is removed. -/
theorem removeEntry_first {tj : NasTimerEntry γ α} {timerId : ℤ}
    (h : timers.db.links.Queue (i :: j :: ys)) (hid : timers.db.id i = some i)
    (hentry : timers.db.entry i = some te) (hentryj : timers.db.entry j = some tj)
    (hj : tj.timerId = some timerId) :
    timers._nasTimerDbRemoveEntry i =
      some (te, ⟨timers.unlinked i, timerRemove timerId timers.system⟩) := by
  have hqueue : timers.db.links.Queue ([] ++ i :: (j :: ys)) := h
  have hhead : (timers.db.links.remove i).head = some j := head_remove hqueue
  have hprev : timers.db.links.prev i = none := prev_eq hqueue
  unfold _nasTimerDbRemoveEntry
  simp [hid, NasTimerDatabase._nasTimerDbRemove, hprev, hhead, hentryj, hj, hentry, unlinked]

end NasTimers

end EdgeSlice.Nas

/-! What a timer database has in step: its queue, its entries and the system timers. -/

namespace EdgeSlice.Nas

variable {γ α : Type*} {ids : ℕ → ℤ}

/-- The entry of a timer that has been started. -/
def Started.entry (t : Started γ α) : NasTimerEntry γ α :=
  ⟨some t.systemId, ⟨t.sec, 0⟩, ⟨t.sec + t.since.sec, t.since.usec⟩, t.cb, t.args⟩

theorem Started.entry_micros (t : Started γ α) : t.entry.tv.micros = t.due := by
  simp only [entry, TimeVal.micros, due, Clock.micros]
  omega

theorem Started.entry_usec_lt (t : Started γ α) : t.entry.tv.tvUsec < 1000000 := t.since.usec_lt

namespace TimerState

/-- The queue, the entries and the system timers are those of the timers that have been started. -/
structure Inv (ids : ℕ → ℤ) (s : TimerState γ α) : Prop where
  queue : ∃ l, s.timers.db.links.Queue l ∧ (∀ i, i ∈ l ↔ (s.started i).isSome) ∧
    l.Pairwise fun i j ↦ s.due i ≤ s.due j
  idle : ∀ i, s.started i = none → s.timers.db.id i = none ∧ s.timers.db.entry i = none
  busy : ∀ i t, s.started i = some t →
    s.timers.db.id i = some i ∧ s.timers.db.entry i = some t.entry
  live : ∀ i t, s.started i = some t →
    s.timers.system.live t.systemId = some ⟨t.sec, t.start, t.args⟩ ∧ 0 < t.sec ∧
      ∃ k, t.since.micros = t.start.micros + k * (t.sec * 1000000)
  given : ∀ i t, s.started i = some t → ∃ n < s.timers.system.count, t.systemId = ids n
  distinct : ∀ i j t u, s.started i = some t → s.started j = some u → t.systemId = u.systemId → i = j

variable {s : TimerState γ α} {i : TimerId} {l xs ys : List TimerId}

theorem queue_eq (h : s.timers.db.links.Queue l) : s.queue = l :=
  h.walk_eq (NasTimerDatabase.length_le h)

namespace Inv

theorem isQueue (h : Inv ids s) : s.timers.db.links.Queue s.queue := by
  obtain ⟨l, hl, -⟩ := h.queue
  rwa [queue_eq hl]

theorem mem_queue (h : Inv ids s) (i : TimerId) : i ∈ s.queue ↔ (s.started i).isSome := by
  obtain ⟨l, hl, hmem, -⟩ := h.queue
  rw [queue_eq hl, hmem]

theorem sorted (h : Inv ids s) : s.queue.Pairwise fun i j ↦ s.due i ≤ s.due j := by
  obtain ⟨l, hl, -, hsorted⟩ := h.queue
  rwa [queue_eq hl]

theorem id_eq_none_iff (h : Inv ids s) : s.timers.db.id i = none ↔ s.started i = none := by
  cases hi : s.started i with
  | none => exact iff_of_true (h.idle i hi).1 rfl
  | some t =>
    rw [(h.busy i t hi).1]
    exact iff_of_false (Option.some_ne_none i) (Option.some_ne_none t)

end Inv

/-- Something periodic comes one period after each of its times, and one period after no other. -/
theorem isLeast_period_iff {since start period : ℕ} (hpos : 0 < period) :
    IsLeast {time | since < time ∧ ∃ k, 0 < k ∧ time = start + k * period} (since + period) ↔
      ∃ k, since = start + k * period := by
  constructor
  · rintro ⟨⟨-, m, hm, heq⟩, -⟩
    obtain ⟨k, rfl⟩ := Nat.exists_eq_add_one_of_ne_zero hm.ne'
    rw [Nat.succ_mul] at heq
    exact ⟨k, by omega⟩
  · rintro ⟨k, rfl⟩
    refine ⟨⟨by omega, k + 1, Nat.succ_pos k, by rw [Nat.succ_mul, Nat.add_assoc]⟩, ?_⟩
    rintro time ⟨hlt, m, -, rfl⟩
    have hkm : k < m := Nat.lt_of_mul_lt_mul_right (Nat.lt_of_add_lt_add_left hlt)
    have hle := Nat.mul_le_mul_right period (Nat.succ_le_of_lt hkm)
    rw [Nat.succ_mul] at hle
    omega

/-- With another period it comes after a time that is not less. -/
theorem period_of_isLeast {start period due : ℕ} (hpos : 0 < due)
    (h : IsLeast {time | start < time ∧ ∃ k, 0 < k ∧ time = start + k * period} (start + due)) :
    due ≤ period := by
  obtain ⟨⟨-, m, hm, heq⟩, hleast⟩ := h
  have hperiod : 0 < period := by
    rcases Nat.eq_zero_or_pos period with rfl | hpos
    · omega
    · exact hpos
  have hle := hleast ⟨Nat.lt_add_of_pos_right hperiod, 1, Nat.one_pos, by rw [Nat.one_mul]⟩
  omega

theorem Inv.isolated (h : Inv ids s) : s.Isolated where
  nodup := h.isQueue.nodup
  mem := h.mem_queue
  sorted := h.sorted
  live i t ht := by
    obtain ⟨hlive, hpos, hwhole⟩ := h.live i t ht
    exact ⟨_, hlive, (isLeast_period_iff (Nat.mul_pos hpos (by decide))).mpr hwhole⟩

theorem init_inv : Inv ids (init : TimerState γ α) where
  queue := ⟨[], ⟨rfl, trivial, List.nodup_nil⟩, fun i ↦ by simp [init], List.Pairwise.nil⟩
  idle _ _ := ⟨rfl, rfl⟩
  busy _ _ := nofun
  live _ _ := nofun
  given _ _ := nofun
  distinct _ _ _ _ := nofun

theorem notFirst_iff (hqueue : s.queue = xs ++ i :: ys) (hnodup : s.queue.Nodup) :
    s.NotFirst i ↔ (xs = [] → ys = []) := by
  unfold NotFirst
  rw [hqueue] at hnodup ⊢
  cases xs with
  | nil => simp
  | cons x xs =>
    have hne : x ≠ i := by
      rintro rfl
      exact (List.nodup_cons.mp hnodup).1 (List.mem_append_right _ List.mem_cons_self)
    simp [hne]

/-- The queue of a database, as far as it depends on the timers that have been started. -/
structure Queued (db : NasTimerDatabase γ α) (started : TimerId → Option (Started γ α))
    (l : List TimerId) : Prop where
  queue : db.links.Queue l
  mem : ∀ i, i ∈ l ↔ (started i).isSome
  sorted : l.Pairwise fun i j ↦ (started i).elim 0 Started.due ≤ (started j).elim 0 Started.due
  entry : ∀ i t, started i = some t → db.entry i = some t.entry

theorem Inv.queued (h : Inv ids s) : Queued s.timers.db s.started s.queue :=
  ⟨h.isQueue, h.mem_queue, h.sorted, fun i t ht ↦ (h.busy i t ht).2⟩

variable {db : NasTimerDatabase γ α} {started : TimerId → Option (Started γ α)} {t : Started γ α}

theorem Queued.remove (h : Queued db started (xs ++ i :: ys)) :
    Queued { db with links := db.links.remove i } (Function.update started i none) (xs ++ ys) := by
  have hnodup := h.queue.nodup
  rw [List.nodup_middle, List.nodup_cons] at hnodup
  have hother : ∀ a ∈ xs ++ ys, Function.update started i none a = started a := fun a ha ↦
    Function.update_of_ne (ne_of_mem_of_not_mem ha hnodup.1) _ _
  refine ⟨h.queue.remove, fun a ↦ ?_, ?_, fun a t ht ↦ ?_⟩
  · by_cases ha : a = i
    · subst ha
      rw [Function.update_self]
      exact iff_of_false hnodup.1 nofun
    · rw [Function.update_of_ne ha, ← h.mem, List.mem_append, List.mem_append, List.mem_cons]
      exact or_congr_right (or_iff_right ha).symm
  · have hsub : (xs ++ ys).Sublist (xs ++ i :: ys) :=
      (List.sublist_cons_self i ys).append_left xs
    refine (h.sorted.sublist hsub).imp_of_mem fun ha hb hle ↦ ?_
    rwa [hother _ ha, hother _ hb]
  · have ha : a ≠ i := by
      rintro rfl
      rw [Function.update_self] at ht
      cases ht
    rw [Function.update_of_ne ha] at ht
    exact h.entry a t ht

/-- An entry that is inserted takes its place among those that are due. -/
theorem Queued.insert (h : Queued db started l) (te : NasTimerEntry γ α) (now : Clock)
    (hi : started i = none) (htv : (NasTimerDatabase.inserted te now).tv = t.entry.tv) :
    ∃ links l', db._nasTimerDbInsertEntry i te now =
        some ⟨db.timerId, Function.update db.id i (some i),
          Function.update db.entry i (some (NasTimerDatabase.inserted te now)), links⟩ ∧
      links.Queue l' ∧ (∀ a, a ∈ l' ↔ (Function.update started i (some t) a).isSome) ∧
      l'.Pairwise fun a b ↦ (Function.update started i (some t) a).elim 0 Started.due ≤
        (Function.update started i (some t) b).elim 0 Started.due := by
  have hnot : i ∉ l := by
    rw [h.mem, hi]
    exact nofun
  have hother : ∀ a ∈ l, Function.update started i (some t) a = started a := fun a ha ↦
    Function.update_of_ne (ne_of_mem_of_not_mem ha hnot) _ _
  have hself : (NasTimerDatabase.inserted te now).tv.micros =
      (Function.update started i (some t) i).elim 0 Started.due := by
    rw [htv, Function.update_self, t.entry_micros, Option.elim_some]
  have hself' : (NasTimerDatabase.inserted te now).tv.tvUsec < 1000000 := by
    rw [htv]
    exact t.entry_usec_lt
  have hdue : ∀ a ∈ l, ∃ ta, db.entry a = some ta ∧
      ta.tv.micros = (Function.update started i (some t) a).elim 0 Started.due ∧
      ta.tv.tvUsec < 1000000 := by
    intro a ha
    obtain ⟨u, hu⟩ := Option.isSome_iff_exists.mp ((h.mem a).mp ha)
    refine ⟨u.entry, h.entry a u hu, ?_, u.entry_usec_lt⟩
    rw [hother a ha, hu, u.entry_micros, Option.elim_some]
  obtain ⟨links, hinsert, hqueue⟩ := NasTimerDatabase.insertEntry_eq
    (fun a ↦ (Function.update started i (some t) a).elim 0 Started.due) h.queue hnot hself hself'
    hdue
  refine ⟨links, _, hinsert, hqueue, fun a ↦ ?_, ?_⟩
  · rw [mem_takeWhile_dropWhile, h.mem]
    by_cases ha : a = i
    · subst ha
      rw [Function.update_self]
      exact iff_of_true (.inl rfl) rfl
    · rw [Function.update_of_ne ha]
      exact or_iff_right ha
  · apply pairwise_takeWhile_dropWhile i
    refine h.sorted.imp_of_mem fun ha hb hle ↦ ?_
    rwa [hother _ ha, hother _ hb]

end TimerState

end EdgeSlice.Nas
