import Mathlib.Order.WellFounded
import Mathlib.Data.Nat.Init

namespace EdgeSlice

variable {σ ε : Type*}

/-- The state after a list of events, none of which is refused. -/
def run (step : σ → ε → Option σ) : σ → List ε → Option σ
  | s, [] => some s
  | s, e :: es => (step s e).bind fun s' ↦ run step s' es

variable {step : σ → ε → Option σ} {s s' : σ}

@[simp] theorem run_nil : run step s [] = some s := rfl

theorem run_cons {e : ε} {es : List ε} :
    run step s (e :: es) = some s' ↔ ∃ t, step s e = some t ∧ run step t es = some s' :=
  Option.bind_eq_some_iff

theorem run_append {es fs : List ε} :
    run step s (es ++ fs) = some s' ↔ ∃ t, run step s es = some t ∧ run step t fs = some s' := by
  induction es generalizing s with
  | nil => simp
  | cons e es ih => simp only [List.cons_append, run_cons, ih]; tauto

/-- Every step of the run meets a condition on its event and the state before it. -/
def Meets (step : σ → ε → Option σ) (A : σ → ε → Prop) : σ → List ε → Prop
  | _, [] => True
  | s, e :: es => A s e ∧ ∀ t ∈ step s e, Meets step A t es

instance Meets.decidable (step : σ → ε → Option σ) (A : σ → ε → Prop)
    [∀ s e, Decidable (A s e)] : ∀ (s : σ) (es : List ε), Decidable (Meets step A s es)
  | _, [] => inferInstanceAs (Decidable True)
  | s, e :: es =>
    have := fun t ↦ Meets.decidable step A t es
    inferInstanceAs (Decidable (A s e ∧ ∀ t ∈ step s e, Meets step A t es))

theorem meets_of_forall {A : ε → Prop} {es : List ε} (hes : ∀ e ∈ es, A e) :
    Meets step (fun _ ↦ A) s es := by
  induction es generalizing s with
  | nil => trivial
  | cons e es ih =>
    exact ⟨hes e List.mem_cons_self, fun t _ ↦ ih (fun f hf ↦ hes f (List.mem_cons_of_mem _ hf))⟩

/-- What the steps that meet a condition keep holds after a run of such steps. -/
theorem run_invariant {P : σ → Prop} {A : σ → ε → Prop}
    (hstep : ∀ s e s', A s e → P s → step s e = some s' → P s') {es : List ε}
    (hmeets : Meets step A s es) (hs : P s) (hrun : run step s es = some s') : P s' := by
  induction es generalizing s with
  | nil => cases hrun; exact hs
  | cons e es ih =>
    obtain ⟨t, ht, hrun⟩ := run_cons.mp hrun
    exact ih (hmeets.2 t ht) (hstep s e t hmeets.1 hs ht) hrun

/-- A run that never ends. -/
structure Behaviour (step : σ → ε → Option σ) (s : σ) where
  state : ℕ → σ
  event : ℕ → ε
  start_eq : state 0 = s
  next : ∀ n, step (state n) (event n) = some (state (n + 1))

namespace Behaviour

variable (b : Behaviour step s)

theorem invariant {P : σ → Prop} {A : ε → Prop}
    (hstep : ∀ s e s', A e → P s → step s e = some s' → P s') (hok : ∀ n, A (b.event n))
    (hs : P s) (n : ℕ) : P (b.state n) := by
  induction n with
  | zero => rw [b.start_eq]; exact hs
  | succ n ih => exact hstep _ _ _ (hok n) ih (b.next n)

/-- A goal is reached when no step away from it raises a variant in a well-founded order
and infinitely many steps lower it. -/
theorem eventually {α : Type*} [Preorder α] [WellFoundedLT α] {P : σ → Prop} {Q : ε → Prop}
    (variant : σ → α) (hfair : ∀ n, ∃ m ≥ n, Q (b.event m))
    (hle : ∀ n, ¬P (b.state n) → P (b.state (n + 1)) ∨
      variant (b.state (n + 1)) ≤ variant (b.state n))
    (hlt : ∀ n, ¬P (b.state n) → Q (b.event n) → P (b.state (n + 1)) ∨
      variant (b.state (n + 1)) < variant (b.state n)) (n : ℕ) :
    ∃ m ≥ n, P (b.state m) := by
  by_contra hnever
  push Not at hnever
  have hdown : ∀ k m, n ≤ m → variant (b.state (m + k)) ≤ variant (b.state m) := by
    intro k m hm
    induction k with
    | zero => exact le_rfl
    | succ k ih =>
      rcases hle (m + k) (hnever _ (by omega)) with hgoal | hvar
      · exact absurd hgoal (hnever (m + k + 1) (by omega))
      · exact hvar.trans ih
  have hfall : ∀ a m, n ≤ m → variant (b.state m) = a → False := by
    intro a
    induction a using WellFoundedLT.induction with
    | ind a ih =>
      rintro m hm rfl
      obtain ⟨k, hk, hevent⟩ := hfair m
      rcases hlt k (hnever k (by omega)) hevent with hgoal | hvar
      · exact hnever (k + 1) (by omega) hgoal
      · refine ih _ (hvar.trans_le ?_) (k + 1) (by omega) rfl
        obtain ⟨d, rfl⟩ := Nat.exists_eq_add_of_le hk
        exact hdown d m hm
  exact hfall _ n le_rfl rfl

end Behaviour

end EdgeSlice
