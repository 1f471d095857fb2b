import Mathlib.Data.List.Basic

namespace EdgeSlice

/-- How a part of a program ends: not within the fuel, with an exception, or normally. -/
inductive Outcome (α : Type*)
  | running
  | error
  | done (a : α)

namespace Outcome

variable {α β γ : Type*}

def bind : Outcome α → (α → Outcome β) → Outcome β
  | .running, _ => .running
  | .error, _ => .error
  | .done a, f => f a

/-- A loop over a list. -/
def loop (f : α → β → Outcome α) : α → List β → Outcome α
  | a, [] => .done a
  | a, b :: bs => (f a b).bind fun a' ↦ loop f a' bs

theorem bind_eq_done {o : Outcome α} {f : α → Outcome β} {b : β} :
    o.bind f = .done b ↔ ∃ a, o = .done a ∧ f a = .done b := by
  cases o with
  | running | error => exact ⟨nofun, nofun⟩
  | done a =>
    constructor
    · exact fun h ↦ ⟨a, rfl, h⟩
    · rintro ⟨_, h, h'⟩
      cases h
      exact h'

/-- A loop ends normally when all its turns do. `I` is an invariant that the turns may use. -/
theorem loop_eq_done {I : α → Prop} {R : β → Prop} {f : α → β → Outcome α} {g : α → β → α}
    {bs : List β} (hstep : ∀ a, I a → ∀ b ∈ bs, ∀ a', f a b = .done a' ↔ R b ∧ a' = g a b)
    (hI : ∀ a, I a → ∀ b, I (g a b)) {a a' : α} (ha : I a) :
    loop f a bs = .done a' ↔ (∀ b ∈ bs, R b) ∧ a' = bs.foldl g a := by
  induction bs generalizing a with
  | nil =>
    rw [loop, List.foldl_nil]
    constructor
    · intro h
      cases h
      exact ⟨List.forall_mem_nil _, rfl⟩
    · rintro ⟨-, rfl⟩
      rfl
  | cons b bs ih =>
    rw [loop, bind_eq_done, List.foldl_cons, List.forall_mem_cons]
    have hrest := fun a ha ↦ ih (fun a ha c hc ↦ hstep a ha c (List.mem_cons_of_mem _ hc)) (a := a) ha
    constructor
    · rintro ⟨c, hc, hloop⟩
      obtain ⟨hb, rfl⟩ := (hstep a ha b List.mem_cons_self c).mp hc
      obtain ⟨hbs, rfl⟩ := (hrest _ (hI a ha b)).mp hloop
      exact ⟨⟨hb, hbs⟩, rfl⟩
    · rintro ⟨⟨hb, hbs⟩, rfl⟩
      exact ⟨g a b, (hstep a ha b List.mem_cons_self _).mpr ⟨hb, rfl⟩,
        (hrest _ (hI a ha b)).mpr ⟨hbs, rfl⟩⟩

/-- What every turn that ends normally keeps. -/
theorem loop_invariant {P : α → Prop} {f : α → β → Outcome α} {bs : List β}
    (hstep : ∀ a b a', P a → f a b = .done a' → P a') {a a' : α} (ha : P a)
    (hloop : loop f a bs = .done a') : P a' := by
  induction bs generalizing a with
  | nil =>
    cases hloop
    exact ha
  | cons b bs ih =>
    obtain ⟨c, hc, hloop⟩ := bind_eq_done.mp hloop
    exact ih (hstep a b c ha hc) hloop

end Outcome

end EdgeSlice
