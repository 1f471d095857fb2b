import Mathlib.Tactic.SplitIfs
import Mathlib.Tactic.TypeStar

/-! Runs of a machine whose steps all meet a condition on the state they start from. -/

namespace EdgeSlice

variable {σ ε : Type*} {step : ε → σ → Option σ} {good : σ → ε → Prop} {a b : σ}

inductive GuardedRun (step : ε → σ → Option σ) (good : σ → ε → Prop) (a : σ) : σ → Prop
  | nil : GuardedRun step good a a
  | snoc {b c : σ} {x : ε} : GuardedRun step good a b → good b x → step x b = some c →
      GuardedRun step good a c

namespace GuardedRun

/-- A run behind a first step. -/
theorem cons {c : σ} {x : ε} (hgood : good a x) (hx : step x a = some c) (h : GuardedRun step good c b) :
    GuardedRun step good a b := by
  induction h with
  | nil => exact .snoc .nil hgood hx
  | snoc _ hgood' hx' ih => exact .snoc ih hgood' hx'

theorem trans {c : σ} (h : GuardedRun step good a b) (h' : GuardedRun step good b c) : GuardedRun step good a c := by
  induction h' with
  | nil => exact h
  | snoc _ hgood hx ih => exact .snoc ih hgood hx

/-- Steps that are only required to succeed. -/
theorem of_foldlM {xs : List ε} (h : xs.foldlM (fun a x ↦ step x a) a = some b) :
    GuardedRun step (fun _ _ ↦ True) a b := by
  induction xs generalizing a with
  | nil =>
    obtain rfl := Option.some.inj h
    exact .nil
  | cons x xs ih =>
    rw [List.foldlM_cons, Option.bind_eq_bind, Option.bind_eq_some_iff] at h
    obtain ⟨c, hx, h⟩ := h
    exact .cons trivial hx (ih h)

/-- Steps that are required to succeed from states in which they meet the condition. -/
theorem of_checked [∀ a x, Decidable (good a x)] {xs : List ε}
    (h : xs.foldlM (fun a x ↦ if good a x then step x a else none) a = some b) : GuardedRun step good a b := by
  induction xs generalizing a with
  | nil =>
    obtain rfl := Option.some.inj h
    exact .nil
  | cons x xs ih =>
    rw [List.foldlM_cons, Option.bind_eq_bind, Option.bind_eq_some_iff] at h
    obtain ⟨c, hx, h⟩ := h
    split_ifs at hx with hgood
    exact .cons hgood hx (ih h)

/-- What a step keeps holds after every run. -/
theorem invariant {P : σ → Prop} (h : GuardedRun step good a b) (ha : P a)
    (hstep : ∀ b x c, P b → good b x → step x b = some c → P c) : P b := by
  induction h with
  | nil => exact ha
  | snoc _ hgood hx ih => exact hstep _ _ _ ih hgood hx

/-- Where a step keeps a property exactly if it meets the condition, the property holds in all states of a run
exactly if all its steps meet the condition. -/
theorem forall_prefix_iff {P : σ → Prop} (hstep : ∀ a x b, P a → step x a = some b → (P b ↔ good a x)) (ha : P a)
    {xs : List ε} (hrun : xs.foldlM (fun a x ↦ step x a) a = some b) :
    (∀ ys c, ys <+: xs → ys.foldlM (fun a x ↦ step x a) a = some c → P c) ↔
      ∀ ys x zs c, xs = ys ++ x :: zs → ys.foldlM (fun a x ↦ step x a) a = some c → good c x := by
  induction xs generalizing a with
  | nil =>
    refine iff_of_true (fun ys c hys hc ↦ ?_) fun ys x zs c hxs ↦ by simp at hxs
    obtain rfl := List.prefix_nil.mp hys
    exact Option.some.inj hc ▸ ha
  | cons x xs ih =>
    rw [List.foldlM_cons, Option.bind_eq_bind, Option.bind_eq_some_iff] at hrun
    obtain ⟨c, hx, hrun⟩ := hrun
    have hfirst (ys : List ε) : (x :: ys).foldlM (fun a x ↦ step x a) a = ys.foldlM (fun a x ↦ step x a) c := by
      rw [List.foldlM_cons, hx]
      rfl
    constructor
    · intro hall
      have hc : P c := hall [x] c (List.prefix_append [x] xs) (hfirst [])
      have hrest := (ih hc hrun).mp fun ys d hys hd ↦
        hall (x :: ys) d (List.cons_prefix_cons.mpr ⟨rfl, hys⟩) ((hfirst ys).trans hd)
      rintro (_ | ⟨y, ys⟩) z zs d hxs hd
      · obtain ⟨rfl, rfl⟩ := List.cons.inj hxs
        exact Option.some.inj hd ▸ (hstep _ _ _ ha hx).mp hc
      · obtain ⟨rfl, rfl⟩ := List.cons.inj hxs
        exact hrest ys z zs d rfl ((hfirst ys).symm.trans hd)
    · intro hall
      have hc : P c := (hstep _ _ _ ha hx).mpr (hall [] x xs a rfl rfl)
      have hrest := (ih hc hrun).mpr fun ys z zs d hxs hd ↦
        hall (x :: ys) z zs d (by rw [hxs, List.cons_append]) ((hfirst ys).trans hd)
      rintro (_ | ⟨y, ys⟩) d hys hd
      · exact Option.some.inj hd ▸ ha
      · obtain ⟨rfl, hbegin⟩ := List.cons_prefix_cons.mp hys
        exact hrest ys d hbegin ((hfirst ys).symm.trans hd)

end GuardedRun

end EdgeSlice
