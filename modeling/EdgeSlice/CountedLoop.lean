import Mathlib.Data.List.Basic
import Mathlib.Data.Nat.Notation
import Mathlib.Logic.Function.Basic
import Mathlib.Tactic.Ring
import Mathlib.Tactic.SplitIfs

/-! Loops that keep counters, and the arrays that they write. -/

namespace EdgeSlice.CountedLoop

open Function

variable {σ κ ν : Type*}

/-- A loop over columns and rows with a counter for all its turns and an index that grows by `inc` from row to row. -/
def columnWise (columns rows inc : ℕ) (start : ℕ → ℕ) (body : ℕ → ℕ → σ → σ) (s : σ) : σ :=
  ((List.range columns).foldl (fun (s, k) column ↦
    let (s, k, _) := (List.range rows).foldl (fun (s, k, index) _ ↦ (body k index s, k + 1, index + inc))
      (s, k, start column)
    (s, k)) (s, 0)).1

/-- A loop over `0, …, n - 1`. -/
def turns (n : ℕ) (body : ℕ → σ → σ) (s : σ) : σ := (List.range n).foldl (fun s i ↦ body i s) s

@[simp] theorem turns_zero (body : ℕ → σ → σ) (s : σ) : turns 0 body s = s := rfl

@[simp] theorem turns_succ (n : ℕ) (body : ℕ → σ → σ) (s : σ) :
    turns (n + 1) body s = body n (turns n body s) := by
  simp [turns, List.range_succ]

theorem turns_add (m n : ℕ) (body : ℕ → σ → σ) (s : σ) :
    turns (m + n) body s = turns n (fun i ↦ body (m + i)) (turns m body s) := by
  induction n with
  | zero => rfl
  | succ n ih => rw [← Nat.add_assoc, turns_succ, ih, turns_succ]

theorem turns_congr {n : ℕ} {body body' : ℕ → σ → σ} (h : ∀ i < n, body i = body' i) (s : σ) :
    turns n body s = turns n body' s := by
  induction n with
  | zero => rfl
  | succ n ih => rw [turns_succ, turns_succ, ih fun i hi ↦ h i (Nat.lt_succ_of_lt hi), h n (Nat.lt_succ_self n)]

/-- Two states that a loop changes independently. -/
theorem turns_prod {τ : Type*} (n : ℕ) (f : ℕ → σ → σ) (g : ℕ → τ → τ) (s : σ) (t : τ) :
    turns n (fun i (s : σ × τ) ↦ (f i s.1, g i s.2)) (s, t) = (turns n f s, turns n g t) := by
  induction n with
  | zero => rfl
  | succ n ih => rw [turns_succ, ih, turns_succ, turns_succ]

/-- A loop that fills an array. -/
theorem turns_update (n : ℕ) (v : ℕ → ν) (f : ℕ → ν) (k : ℕ) :
    turns n (fun i f ↦ update f i (v i)) f k = if k < n then v k else f k := by
  induction n with
  | zero => simp
  | succ n ih =>
    rw [turns_succ, update_apply, ih]
    by_cases hk : k = n
    · simp [hk]
    · have hiff : k < n ↔ k < n + 1 := by omega
      simp [hk, hiff]

/-- A loop that fills an array out of order: a cell holds what was written to it last. -/
theorem turns_update_last [DecidableEq κ] {n k : ℕ} {addr : ℕ → κ} {v : ℕ → ν} {x : κ} (f : κ → ν) (hk : k < n)
    (hx : addr k = x) (hlast : ∀ i, k < i → i < n → addr i ≠ x) :
    turns n (fun i f ↦ update f (addr i) (v i)) f x = v k := by
  induction n with
  | zero => exact absurd hk (Nat.not_lt_zero k)
  | succ n ih =>
    rw [turns_succ, update_apply]
    rcases Nat.lt_succ_iff_lt_or_eq.mp hk with hlt | rfl
    · rw [if_neg (hlast n hlt (Nat.lt_succ_self n)).symm]
      exact ih hlt fun i hki hi ↦ hlast i hki (Nat.lt_succ_of_lt hi)
    · rw [if_pos hx.symm]

/-- One column. -/
theorem foldl_rows (rows inc k start : ℕ) (body : ℕ → ℕ → σ → σ) (s : σ) :
    (List.range rows).foldl (fun (s, k, index) _ ↦ (body k index s, k + 1, index + inc)) (s, k, start) =
      (turns rows (fun row ↦ body (k + row) (start + inc * row)) s, k + rows, start + inc * rows) := by
  induction rows with
  | zero => simp
  | succ rows ih =>
    rw [List.range_succ, List.foldl_append, ih, turns_succ]
    simp [Nat.mul_succ, Nat.add_assoc]

/-- The two loops as one. -/
theorem columnWise_eq (columns rows inc : ℕ) (start : ℕ → ℕ) (body : ℕ → ℕ → σ → σ) (s : σ) :
    columnWise columns rows inc start body s =
      turns (columns * rows) (fun k ↦ body k (start (k / rows) + inc * (k % rows))) s := by
  have hboth : (List.range columns).foldl (fun (s, k) column ↦
      let (s, k, _) := (List.range rows).foldl (fun (s, k, index) _ ↦ (body k index s, k + 1, index + inc))
        (s, k, start column)
      (s, k)) (s, 0) =
      (turns (columns * rows) (fun k ↦ body k (start (k / rows) + inc * (k % rows))) s, columns * rows) := by
    induction columns with
    | zero => simp
    | succ columns ih =>
      rw [List.range_succ, List.foldl_append, ih, Nat.succ_mul, turns_add]
      simp only [List.foldl_cons, List.foldl_nil, foldl_rows]
      refine Prod.ext (turns_congr (fun row hrow ↦ ?_) _) rfl
      have hdiv : (columns * rows + row) / rows = columns := by
        rw [Nat.mul_comm, Nat.mul_add_div (by omega), Nat.div_eq_of_lt hrow, Nat.add_zero]
      have hmod : (columns * rows + row) % rows = row := by
        rw [Nat.mul_comm, Nat.mul_add_mod, Nat.mod_eq_of_lt hrow]
      rw [hdiv, hmod]
  exact congrArg Prod.fst hboth

/-- A loop with a counter that grows by `inc`. -/
theorem foldl_counter (n inc : ℕ) (body : ℕ → ℕ → σ → σ) (s : σ) :
    (List.range n).foldl (fun (s, k) i ↦ (body k i s, k + inc)) (s, 0) =
      (turns n (fun i ↦ body (inc * i) i) s, inc * n) := by
  induction n with
  | zero => simp
  | succ n ih =>
    rw [List.range_succ, List.foldl_append, ih, turns_succ]
    simp [Nat.mul_succ]

section Arrays

variable [DecidableEq κ] {n : ℕ} {addr : ℕ → Fin 3 → κ} {value : ℕ → Fin 3 → ν} {f : κ → ν}

/-- A turn that writes three cells. -/
def put (addr : ℕ → Fin 3 → κ) (value : ℕ → Fin 3 → ν) (k : ℕ) (f : κ → ν) : κ → ν :=
  update (update (update f (addr k 0) (value k 0)) (addr k 1) (value k 1)) (addr k 2) (value k 2)

theorem put_other {k : ℕ} {x : κ} (h : ∀ j, x ≠ addr k j) : put addr value k f x = f x := by
  simp [put, h]

theorem put_self {k : ℕ} (hinj : Injective (addr k)) (j : Fin 3) : put addr value k f (addr k j) = value k j := by
  have hne (i j : Fin 3) (hij : i ≠ j) : addr k i ≠ addr k j := fun h ↦ hij (hinj h)
  match j with
  | 0 => simp [put, hne 0 1 (by decide), hne 0 2 (by decide)]
  | 1 => simp [put, hne 1 2 (by decide)]
  | 2 => simp [put]

theorem put_const {k : ℕ} {x : κ} {v : ν} (h : ∃ j, x = addr k j) : put addr (fun _ _ ↦ v) k f x = v := by
  simp only [put, update_apply]
  split_ifs with h₂ h₁ h₀
  · rfl
  · rfl
  · rfl
  · obtain ⟨j, hj⟩ := h
    match j with
    | 0 => exact absurd hj h₀
    | 1 => exact absurd hj h₁
    | 2 => exact absurd hj h₂

/-- Where the cells are all different, each has in the end what is written to it. -/
theorem turns_put {k : ℕ} (hinj : ∀ k < n, ∀ k' < n, ∀ j j', addr k j = addr k' j' → k = k' ∧ j = j') (hk : k < n)
    (j : Fin 3) : turns n (put addr value) f (addr k j) = value k j := by
  induction n with
  | zero => exact absurd hk (Nat.not_lt_zero k)
  | succ n ih =>
    rw [turns_succ]
    have hlast := Nat.lt_succ_self n
    rcases Nat.lt_succ_iff_lt_or_eq.mp hk with hlt | rfl
    · rw [put_other fun j' h ↦ hlt.ne (hinj k hk n hlast j j' h).1]
      exact ih (fun k hk k' hk' ↦ hinj k (Nat.lt_succ_of_lt hk) k' (Nat.lt_succ_of_lt hk')) hlt
    · exact put_self (fun i i' h ↦ (hinj k hk k hk i i' h).2) j

end Arrays

section Conditional

variable [DecidableEq κ] {c : Prop} [Decidable c] (f : κ → ν) (a b x : κ) (v : ν)

theorem update_if_apply : (if c then update f a v else f) x = if c ∧ x = a then v else f x := by
  by_cases hc : c
  · simp [hc, update_apply]
  · simp [hc]

theorem update_update_if_apply :
    (if c then update (update f a v) b v else f) x = if c ∧ (x = a ∨ x = b) then v else f x := by
  by_cases hc : c
  · by_cases hb : x = b
    · simp [hc, hb]
    · simp [hc, hb, update_apply]
  · simp [hc]

end Conditional

/-- A turn that writes `v` to the cells that it marks. -/
structure Marks (mark : ℕ → κ → Prop) (v : ν) (body : ℕ → (κ → ν) → κ → ν) : Prop where
  marked : ∀ i f x, mark i x → body i f x = v
  other : ∀ i f x, ¬ mark i x → body i f x = f x

theorem Marks.turns {mark : ℕ → κ → Prop} {v : ν} {body : ℕ → (κ → ν) → κ → ν} (h : Marks mark v body) (n : ℕ)
    (f : κ → ν) (x : κ) :
    (∀ i < n, ¬ mark i x) ∧ turns n body f x = f x ∨ (∃ i < n, mark i x) ∧ turns n body f x = v := by
  induction n with
  | zero => exact .inl ⟨fun i hi ↦ absurd hi (Nat.not_lt_zero i), rfl⟩
  | succ n ih =>
    rw [turns_succ]
    by_cases hn : mark n x
    · exact .inr ⟨⟨n, Nat.lt_succ_self n, hn⟩, h.marked n _ x hn⟩
    · rw [h.other n _ x hn]
      refine ih.imp (fun h ↦ ⟨fun i hi ↦ ?_, h.2⟩) fun h ↦ ⟨?_, h.2⟩
      · rcases Nat.lt_succ_iff_lt_or_eq.mp hi with hlt | rfl
        · exact h.1 i hlt
        · exact hn
      · obtain ⟨i, hi, hx⟩ := h.1
        exact ⟨i, Nat.lt_succ_of_lt hi, hx⟩

/-- A buffer that has had another value everywhere. -/
theorem Marks.turns_eq_iff {mark : ℕ → κ → Prop} {v u : ν} {body : ℕ → (κ → ν) → κ → ν} (h : Marks mark v body)
    (huv : u ≠ v) (n : ℕ) (x : κ) : CountedLoop.turns n body (fun _ ↦ u) x = v ↔ ∃ i < n, mark i x := by
  rcases h.turns n (fun _ ↦ u) x with ⟨hnone, hvalue⟩ | ⟨hsome, hvalue⟩
  · rw [hvalue]
    exact iff_of_false huv fun ⟨i, hi, hx⟩ ↦ hnone i hi hx
  · exact iff_of_true hvalue hsome

end EdgeSlice.CountedLoop
