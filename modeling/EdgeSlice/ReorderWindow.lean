import Mathlib.Data.List.Basic
import Mathlib.Logic.Function.Basic

/-! Numbered items that arrive in any order and are handed on in the order of their numbers. -/

namespace EdgeSlice

open Function

/-- All numbers below `next` are done with, and all that have arrived are below `high`. While the
timer is running nothing below `mark` is given up. -/
structure ReorderWindow (α : Type*) where
  next : ℕ
  mark : ℕ
  high : ℕ
  buffer : ℕ → Option α
  running : Bool

namespace ReorderWindow

variable {α : Type*} {w : ReorderWindow α} {buffer : ℕ → Option α} {size n k i : ℕ} {a : α}

/-- The first of `k` numbers from `n` on that is not in the buffer, or the one behind them. -/
def skip (buffer : ℕ → Option α) : ℕ → ℕ → ℕ
  | 0, n => n
  | k + 1, n => if (buffer n).isSome then skip buffer k (n + 1) else n

def put (i : ℕ) (a : α) (w : ReorderWindow α) : ReorderWindow α :=
  { w with buffer := update w.buffer i (some a) }

/-- An item above the window moves the window. -/
def moveWindow (size i : ℕ) (w : ReorderWindow α) : ReorderWindow α :=
  if i < w.high then w else { w with next := max w.next (i + 1 - size), high := i + 1 }

def moveNext (i : ℕ) (w : ReorderWindow α) : ReorderWindow α :=
  if i = w.next then { w with next := skip w.buffer (w.high - w.next) w.next } else w

/-- The timer is stopped when all that it was started for is done with, but not where nothing has
arrived behind that; it is started if something is missing. -/
def setTimer (arm : Bool) (w : ReorderWindow α) : ReorderWindow α :=
  let stopped := w.mark < w.next ∨ w.mark = w.next ∧ w.next ≠ w.high
  if w.running ∧ ¬stopped then w
  else if w.next < w.high then { w with mark := w.high, running := arm }
  else { w with running := false }

def receive (size : ℕ) (arm : Bool) (i : ℕ) (a : α) (w : ReorderWindow α) : ReorderWindow α :=
  if i < w.next then w
  else if (w.buffer i).isSome ∧ i ≠ w.next then w
  else (((w.put i a).moveWindow size i).moveNext i).setTimer arm

/-- The timer runs out. -/
def expire (w : ReorderWindow α) : ReorderWindow α :=
  let next := skip w.buffer (w.high - w.mark) w.mark
  if next < w.high then { w with next := next, mark := w.high }
  else { w with next := next, running := false }

theorem skip_bounds (buffer : ℕ → Option α) (k n : ℕ) :
    n ≤ skip buffer k n ∧ skip buffer k n ≤ n + k := by
  induction k generalizing n with
  | zero => exact ⟨Nat.le_refl _, Nat.le_refl _⟩
  | succ k ih =>
    rw [skip]
    split_ifs with hsome
    · have hnext := ih (n + 1)
      omega
    · omega

/-- All numbers are in the buffer where none of them is the first one that is not. -/
theorem skip_all (h : skip buffer k n = n + k) : ∀ j, n ≤ j → j < n + k → (buffer j).isSome := by
  induction k generalizing n with
  | zero => intro j hj hj'; omega
  | succ k ih =>
    rw [skip] at h
    split_ifs at h with hsome
    · intro j hj hj'
      rcases Nat.eq_or_lt_of_le hj with rfl | hlt
      · exact hsome
      · have hrest : skip buffer k (n + 1) = n + 1 + k := by omega
        exact ih hrest j hlt (by omega)
    · omega

/-- The window is not larger than its size, and what has arrived is below its upper end. -/
structure Placed (size : ℕ) (w : ReorderWindow α) : Prop where
  next_le : w.next ≤ w.high
  high_le : w.high ≤ w.next + size
  above : ∀ j, w.high ≤ j → w.buffer j = none

/-- A running timer waits for something that is missing, or for nothing where all has arrived. -/
structure Good (size : ℕ) (w : ReorderWindow α) : Prop extends Placed size w where
  mark_le : w.running = true → w.mark ≤ w.high
  waits : w.running = true → w.next < w.mark ∨ w.next = w.mark ∧ w.mark = w.high

/-- The timer is running for something that is missing. -/
def Armed (w : ReorderWindow α) : Prop := w.running = true → w.next < w.mark

/-- What is missing below the upper end is the number that arrives, and the timer is running for
it. -/
def FillsLast (i : ℕ) (w : ReorderWindow α) : Prop :=
  w.running = true ∧ w.mark = w.high ∧ i = w.next ∧ i < w.high ∧
    ∀ j, i < j → j < w.high → (w.buffer j).isSome

namespace Placed

theorem put_above (h : w.Placed size) (a : α) {j : ℕ} (hj : w.high ≤ j) (hne : j ≠ i) :
    (w.put i a).buffer j = none := (update_of_ne hne _ _).trans (h.above j hj)

/-- The window is moved for an item that has been stored. -/
theorem moveWindow (h : w.Placed size) (i : ℕ) (a : α) :
    ((w.put i a).moveWindow size i).Placed size := by
  rw [ReorderWindow.moveWindow]
  split_ifs with hlt
  · have hlt' : i < w.high := hlt
    exact ⟨h.next_le, h.high_le, fun j hj ↦ h.put_above a hj (Nat.ne_of_gt (Nat.lt_of_lt_of_le hlt' hj))⟩
  · have hhigh : w.high ≤ i := Nat.le_of_not_lt hlt
    have hle := h.next_le
    refine ⟨?_, ?_, fun j hj ↦ ?_⟩
    · change max w.next (i + 1 - size) ≤ i + 1
      omega
    · change i + 1 ≤ max w.next (i + 1 - size) + size
      omega
    · have hj' : i + 1 ≤ j := hj
      exact h.put_above a (by omega) (by omega)

theorem moveNext (h : w.Placed size) (i : ℕ) : (w.moveNext i).Placed size := by
  rw [ReorderWindow.moveNext]
  split_ifs with hi
  · have hskip := skip_bounds w.buffer (w.high - w.next) w.next
    have hle := h.next_le
    have hhigh := h.high_le
    refine ⟨?_, ?_, h.above⟩
    · change skip w.buffer (w.high - w.next) w.next ≤ w.high
      omega
    · change w.high ≤ skip w.buffer (w.high - w.next) w.next + size
      omega
  · exact h

theorem setTimer (h : w.Placed size) (arm : Bool) (hmark : w.running = true → w.mark ≤ w.high) :
    (w.setTimer arm).Good size := by
  simp only [ReorderWindow.setTimer]
  split_ifs with hkeep hlt
  · refine ⟨h, hmark, fun _ ↦ ?_⟩
    obtain ⟨-, hno⟩ := hkeep
    omega
  · exact ⟨⟨h.next_le, h.high_le, h.above⟩, fun _ ↦ Nat.le_refl _, fun _ ↦ Or.inl hlt⟩
  · exact ⟨⟨h.next_le, h.high_le, h.above⟩, Bool.noConfusion, Bool.noConfusion⟩

end Placed

theorem moveWindow_high (size i : ℕ) (w : ReorderWindow α) :
    (w.moveWindow size i).high = if i < w.high then w.high else i + 1 := by
  rw [moveWindow]
  split_ifs
  · rfl
  · rfl

theorem lt_moveWindow_high (size i : ℕ) (w : ReorderWindow α) : i < (w.moveWindow size i).high := by
  rw [moveWindow_high]
  split_ifs with hlt
  · exact hlt
  · exact Nat.lt_succ_self i

theorem moveWindow_next_le_succ (size : ℕ) (h : w.next ≤ i + 1) : (w.moveWindow size i).next ≤ i + 1 := by
  rw [moveWindow]
  split_ifs
  · exact h
  · exact Nat.max_le.mpr ⟨h, Nat.sub_le _ _⟩

theorem moveWindow_buffer (size i : ℕ) (w : ReorderWindow α) : (w.moveWindow size i).buffer = w.buffer := by
  rw [moveWindow]
  split_ifs
  · rfl
  · rfl

theorem moveNext_buffer (i : ℕ) (w : ReorderWindow α) : (w.moveNext i).buffer = w.buffer := by
  rw [moveNext]
  split_ifs
  · rfl
  · rfl

theorem setTimer_buffer (arm : Bool) (w : ReorderWindow α) : (w.setTimer arm).buffer = w.buffer := by
  simp only [setTimer]
  split_ifs
  · rfl
  · rfl
  · rfl

theorem setTimer_high (arm : Bool) (w : ReorderWindow α) : (w.setTimer arm).high = w.high := by
  simp only [setTimer]
  split_ifs
  · rfl
  · rfl
  · rfl

theorem moveWindow_high_le (size i : ℕ) (w : ReorderWindow α) : w.high ≤ (w.moveWindow size i).high := by
  rw [moveWindow]
  split_ifs with hlt
  · exact Nat.le_refl _
  · exact Nat.le_succ_of_le (Nat.le_of_not_lt hlt)

theorem moveWindow_mark (size i : ℕ) (w : ReorderWindow α) :
    (w.moveWindow size i).mark = w.mark ∧ (w.moveWindow size i).running = w.running := by
  rw [moveWindow]
  split_ifs
  · exact ⟨rfl, rfl⟩
  · exact ⟨rfl, rfl⟩

theorem moveNext_mark (i : ℕ) (w : ReorderWindow α) :
    (w.moveNext i).mark = w.mark ∧ (w.moveNext i).running = w.running ∧
      (w.moveNext i).high = w.high := by
  rw [moveNext]
  split_ifs
  · exact ⟨rfl, rfl, rfl⟩
  · exact ⟨rfl, rfl, rfl⟩

/-- The timer that is kept runs for something that is missing, or for the upper end that has been
reached. -/
theorem armed_setTimer (arm : Bool) (h : ¬(w.running = true ∧ w.mark = w.next ∧ w.next = w.high)) :
    (w.setTimer arm).Armed := by
  simp only [setTimer]
  split_ifs with hkeep hlt
  · intro hrunning
    by_contra hle
    have hmark : w.mark = w.next := by omega
    exact h ⟨hrunning, hmark, by
      by_contra hne
      exact hkeep.2 (Or.inr ⟨hmark, hne⟩)⟩
  · exact fun _ ↦ hlt
  · exact Bool.noConfusion

namespace Good

theorem receive (h : w.Good size) (arm : Bool) (i : ℕ) (a : α) : (w.receive size arm i a).Good size := by
  rw [ReorderWindow.receive]
  split_ifs
  · exact h
  · exact h
  · apply ((h.toPlaced.moveWindow i a).moveNext i).setTimer
    obtain ⟨hmark, hrunning, hhigh⟩ := moveNext_mark i
      ((w.put i a).moveWindow size i)
    obtain ⟨hmark', hrunning'⟩ := moveWindow_mark size i (w.put i a)
    rw [hmark, hrunning, hhigh, hmark', hrunning']
    intro hrun
    exact Nat.le_trans (h.mark_le hrun) (moveWindow_high_le size i (w.put i a))

/-- The upper end is behind the highest number that has arrived. -/
theorem receive_high (h : w.Good size) (arm : Bool) (i : ℕ) (a : α) :
    (w.receive size arm i a).high = max w.high (i + 1) := by
  have hle := h.next_le
  rw [ReorderWindow.receive]
  split_ifs with hold hdup
  · omega
  · have hbelow : i < w.high := by
      by_contra hge
      rw [h.above i (Nat.le_of_not_lt hge)] at hdup
      exact Bool.noConfusion hdup.1
    omega
  · obtain ⟨-, -, hnext⟩ := moveNext_mark i ((w.put i a).moveWindow size i)
    rw [setTimer_high, hnext, moveWindow_high]
    change (if i < w.high then w.high else i + 1) = max w.high (i + 1)
    split_ifs
    · omega
    · omega

/-- The timer runs for something that is missing unless the last missing number arrives. -/
theorem armed_receive (h : w.Good size) (harmed : w.Armed) (arm : Bool) (a : α)
    (hi : ¬w.FillsLast i) : (w.receive size arm i a).Armed := by
  rw [ReorderWindow.receive]
  split_ifs with hold hdup
  · exact harmed
  · exact harmed
  apply armed_setTimer
  obtain ⟨hmark, hrunning, hhigh⟩ := moveNext_mark i
    ((w.put i a).moveWindow size i)
  obtain ⟨hmark', hrunning'⟩ := moveWindow_mark size i (w.put i a)
  rw [hmark, hrunning, hhigh, hmark', hrunning']
  rintro ⟨hrun, hnext, htop⟩
  have hbounds := h.mark_le hrun
  have hmissing := harmed hrun
  by_cases hlt : i < w.high
  · have hmoved : (w.put i a).moveWindow size i = w.put i a := if_pos hlt
    rw [hmoved] at hnext htop
    have htop' : ((w.put i a).moveNext i).next = w.high := htop
    rw [ReorderWindow.moveNext] at hnext htop'
    split_ifs at hnext htop' with hi'
    · have hlast : skip (w.put i a).buffer (w.high - w.next) w.next = w.high := htop'
      have hle := h.next_le
      refine hi ⟨hrun, hnext.trans hlast, hi', hlt, fun j hj hj' ↦ ?_⟩
      have hi'' : i = w.next := hi'
      have hall := skip_all (hlast.trans (Nat.add_sub_of_le hle).symm) j (by omega) (by omega)
      have hkept : (w.put i a).buffer j = w.buffer j := update_of_ne (Nat.ne_of_gt hj) _ _
      rwa [hkept] at hall
    · have hnext' : w.mark = w.next := hnext
      omega
  · have hhigher : ((w.put i a).moveWindow size i).high = i + 1 :=
      congrArg high (if_neg hlt : (w.put i a).moveWindow size i = _)
    have hhigher' := hnext.trans htop
    have hmark : (w.put i a).mark = w.mark := rfl
    omega

theorem expire (h : w.Good size) (hrunning : w.running = true) : w.expire.Good size ∧ w.expire.Armed := by
  have hskip := skip_bounds w.buffer (w.high - w.mark) w.mark
  have hmark := h.mark_le hrunning
  have hwaits := h.waits hrunning
  have hhigh := h.high_le
  simp only [ReorderWindow.expire]
  split_ifs with hlt
  · refine ⟨⟨⟨Nat.le_of_lt hlt, ?_, h.above⟩, fun _ ↦ Nat.le_refl _, fun _ ↦ Or.inl hlt⟩, fun _ ↦ hlt⟩
    change w.high ≤ skip w.buffer (w.high - w.mark) w.mark + size
    omega
  · refine ⟨⟨⟨?_, ?_, h.above⟩, Bool.noConfusion, Bool.noConfusion⟩, Bool.noConfusion⟩
    · change skip w.buffer (w.high - w.mark) w.mark ≤ w.high
      omega
    · change w.high ≤ skip w.buffer (w.high - w.mark) w.mark + size
      omega

end Good

end ReorderWindow

end EdgeSlice
