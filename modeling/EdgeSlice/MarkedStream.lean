import Mathlib.Data.List.Basic

/-! Streams with marks between their items, which are read piece by piece. -/

namespace EdgeSlice.MarkedStream

variable {α σ : Type*}

/-- A reader takes items, and closes at a mark what it has taken. -/
structure Reader (α σ : Type*) where
  push : α → σ → Option σ
  close : σ → Option σ
  close_close : ∀ {s s'}, close s = some s' → close s' = some s'

namespace Reader

variable {R : Reader α σ} {marked marked' : ℕ → Bool} {k k' : ℕ} {xs ys : List α} {s s' : σ}

/-- The place `k` between two items. -/
def pass (R : Reader α σ) (marked : ℕ → Bool) (k : ℕ) (s : σ) : Option σ :=
  if marked k then R.close s else some s

/-- The items from the place `k` on, each after the place before it. -/
def walk (R : Reader α σ) (marked : ℕ → Bool) : ℕ → List α → σ → Option σ
  | _, [], s => some s
  | k, x :: xs, s => ((R.pass marked k s).bind (R.push x)).bind (walk R marked (k + 1) xs)

/-- Items, with the places at both their ends. -/
def read (R : Reader α σ) (marked : ℕ → Bool) (k : ℕ) (xs : List α) (s : σ) : Option σ :=
  ((R.pass marked k s).bind (R.walk marked k xs)).bind (R.pass marked (k + xs.length))

/-- Items between which there is no mark. -/
def pushAll (R : Reader α σ) : List α → σ → Option σ
  | [], s => some s
  | x :: xs, s => (R.push x s).bind (pushAll R xs)

/-- Pieces that follow one another. -/
def readAll (R : Reader α σ) (marked : ℕ → Bool) : ℕ → List (List α) → σ → Option σ
  | _, [], s => some s
  | k, xs :: pieces, s => (R.read marked k xs s).bind (readAll R marked (k + xs.length) pieces)

theorem pass_pass (h : R.pass marked k s = some s') : R.pass marked k s' = some s' := by
  simp only [pass] at h ⊢
  split_ifs at h ⊢
  · exact R.close_close h
  · rfl

theorem walk_append :
    R.walk marked k (xs ++ ys) s = (R.walk marked k xs s).bind (R.walk marked (k + xs.length) ys) := by
  induction xs generalizing k s with
  | nil => rfl
  | cons x xs ih =>
    have hlength : k + (x :: xs).length = k + 1 + xs.length := by
      rw [List.length_cons]
      omega
    simp only [List.cons_append, walk, hlength, Option.bind_assoc]
    congr 1
    funext s
    congr 1
    funext s
    exact ih

/-- The place behind a piece is passed again before the next one. -/
theorem pass_bind_read : (R.pass marked k s).bind (R.read marked k xs) = R.read marked k xs s := by
  cases h : R.pass marked k s with
  | none => simp [read, h]
  | some s' => simp [read, h, pass_pass h]

theorem walk_bind_pass : (R.walk marked k xs s).bind (R.pass marked (k + xs.length)) = R.read marked k xs s := by
  cases xs with
  | nil =>
    cases h : R.pass marked k s with
    | none => simp [read, walk, h]
    | some s' => simp [read, walk, h, pass_pass h]
  | cons x xs =>
    cases h : R.pass marked k s with
    | none => simp [read, walk, h]
    | some s' => simp [read, walk, h, pass_pass h]

theorem read_append :
    R.read marked k (xs ++ ys) s = (R.read marked k xs s).bind (R.read marked (k + xs.length) ys) := by
  have hlength : k + (xs ++ ys).length = k + xs.length + ys.length := by
    rw [List.length_append]
    omega
  rw [← walk_bind_pass, ← walk_bind_pass, walk_append, hlength, Option.bind_assoc, Option.bind_assoc]
  congr 1
  funext s
  rw [walk_bind_pass, pass_bind_read]

theorem read_nil : R.read marked k [] s = R.pass marked k s := by
  rw [← walk_bind_pass]
  rfl

theorem read_cons {x : α} : R.read marked k (x :: xs) s =
    ((R.pass marked k s).bind (R.push x)).bind (R.read marked (k + 1) xs) := by
  have hlength : k + (x :: xs).length = k + 1 + xs.length := by
    rw [List.length_cons]
    omega
  rw [← walk_bind_pass, walk, hlength, Option.bind_assoc]
  congr 1
  funext s
  exact walk_bind_pass

theorem pass_bind_readAll_cons {pieces : List (List α)} :
    (R.pass marked k s).bind (R.readAll marked k (xs :: pieces)) = R.readAll marked k (xs :: pieces) s := by
  rw [readAll, ← pass_bind_read, Option.bind_assoc]
  rfl

theorem pass_bind_readAll (pieces : List (List α)) :
    (R.pass marked k s).bind (R.readAll marked k pieces) = R.read marked k pieces.flatten s := by
  induction pieces generalizing k s with
  | nil =>
    rw [List.flatten_nil, read_nil]
    exact Option.bind_fun_some _
  | cons xs pieces ih =>
    rw [pass_bind_readAll_cons, readAll, List.flatten_cons, read_append, ← walk_bind_pass, Option.bind_assoc,
      Option.bind_assoc]
    congr 1
    funext s
    rw [ih, pass_bind_read]

/-- A stream may be cut anywhere. -/
theorem readAll_eq {pieces : List (List α)} (h : pieces ≠ []) :
    R.readAll marked k pieces s = R.read marked k pieces.flatten s := by
  cases pieces with
  | nil => exact absurd rfl h
  | cons xs pieces => rw [← pass_bind_readAll_cons, pass_bind_readAll]

theorem pass_congr (h : marked k = marked' k') : R.pass marked k = R.pass marked' k' := by
  funext s
  simp only [pass, h]

/-- The marks matter only from one end of the items to the other. -/
theorem read_congr (h : ∀ i ≤ xs.length, marked (k + i) = marked' (k' + i)) :
    R.read marked k xs s = R.read marked' k' xs s := by
  have hfirst : R.pass marked k = R.pass marked' k' := pass_congr (h 0 (Nat.zero_le _))
  induction xs generalizing k k' s with
  | nil => rw [read_nil, read_nil, hfirst]
  | cons x xs ih =>
    have hrest (i : ℕ) (hi : i ≤ xs.length) : marked (k + 1 + i) = marked' (k' + 1 + i) := by
      have hnext := h (i + 1) (by simpa using hi)
      rwa [Nat.add_comm i, ← Nat.add_assoc, ← Nat.add_assoc] at hnext
    rw [read_cons, read_cons, hfirst]
    congr 1
    funext s
    exact ih hrest (pass_congr (hrest 0 (Nat.zero_le _)))

/-- Without a mark inside, the items are taken one after the other. -/
theorem read_unmarked (hxs : xs ≠ []) (h : ∀ i, 0 < i → i < xs.length → marked (k + i) = false) :
    R.read marked k xs s =
      ((R.pass marked k s).bind (R.pushAll xs)).bind (R.pass marked (k + xs.length)) := by
  induction xs generalizing k s with
  | nil => exact absurd rfl hxs
  | cons x xs ih =>
    have hlength : k + (x :: xs).length = k + 1 + xs.length := by
      rw [List.length_cons]
      omega
    rw [read_cons, hlength, Option.bind_assoc, Option.bind_assoc]
    congr 1
    funext s
    rw [pushAll, Option.bind_assoc]
    congr 1
    funext s
    by_cases hnil : xs = []
    · subst hnil
      exact read_nil
    · have hnext (i : ℕ) (hi : 0 < i) (hlt : i < xs.length) : marked (k + 1 + i) = false := by
        have hlater := h (i + 1) (by omega) (by simpa using hlt)
        rwa [Nat.add_comm i, ← Nat.add_assoc] at hlater
      have hopen : R.pass marked (k + 1) s = some s := by
        have hlength : 1 < (x :: xs).length := by
          have hpos := List.length_pos_of_ne_nil hnil
          rw [List.length_cons]
          omega
        simp only [pass, h 1 Nat.one_pos hlength, Bool.false_eq_true, if_false]
      rw [ih hnil hnext, hopen]
      rfl

end Reader

end EdgeSlice.MarkedStream
