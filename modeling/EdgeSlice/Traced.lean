import Mathlib.Data.List.Basic

namespace EdgeSlice

/-- A state together with every state that was passed on the way to it. -/
structure Traced (σ : Type*) where
  now : σ
  visited : List σ
  now_mem : now ∈ visited

namespace Traced

variable {σ β : Type*} {R : σ → σ → Prop} {c d e : Traced σ}

def start (a : σ) : Traced σ := ⟨a, [a], List.mem_singleton_self a⟩

def step (c : Traced σ) (a : σ) : Traced σ := ⟨a, a :: c.visited, List.mem_cons_self⟩

@[simp] theorem start_now (a : σ) : (start a).now = a := rfl

@[simp] theorem step_now (c : Traced σ) (a : σ) : (c.step a).now = a := rfl

/-- The states passed between `c` and `d` all stand in the relation to where `c` is. -/
structure Within (R : σ → σ → Prop) (c d : Traced σ) : Prop where
  now : R c.now d.now
  passed : ∀ a ∈ d.visited, a ∈ c.visited ∨ R c.now a
  visited : c.visited ⊆ d.visited

namespace Within

theorem refl (hR : ∀ a, R a a) (c : Traced σ) : Within R c c :=
  ⟨hR c.now, fun _ ha ↦ .inl ha, List.Subset.refl _⟩

theorem step {a : σ} (h : R c.now a) : Within R c (c.step a) := by
  refine ⟨h, ?_, List.subset_cons_self _ _⟩
  intro b hb
  rcases List.mem_cons.mp hb with rfl | hb
  · exact .inr h
  · exact .inl hb

theorem trans (hR : ∀ a b c, R a b → R b c → R a c) (h : Within R c d) (h' : Within R d e) :
    Within R c e := by
  refine ⟨hR _ _ _ h.now h'.now, ?_, List.Subset.trans h.visited h'.visited⟩
  intro a ha
  rcases h'.passed a ha with ha | ha
  · exact h.passed a ha
  · exact .inr (hR _ _ _ h.now ha)

theorem mono {S : σ → σ → Prop} (hRS : ∀ a b, R a b → S a b) (h : Within R c d) : Within S c d :=
  ⟨hRS _ _ h.now, fun a ha ↦ (h.passed a ha).imp id (hRS _ _), h.visited⟩

theorem foldl (hrefl : ∀ a, R a a) (htrans : ∀ a b c, R a b → R b c → R a c)
    {f : Traced σ → β → Traced σ} (bs : List β) (hf : ∀ c, ∀ b ∈ bs, Within R c (f c b))
    (c : Traced σ) : Within R c (bs.foldl f c) := by
  induction bs generalizing c with
  | nil => exact refl hrefl c
  | cons b bs ih =>
    have hhead := hf c b List.mem_cons_self
    have htail := ih (fun c b' hb' ↦ hf c b' (List.mem_cons_of_mem _ hb')) (f c b)
    exact hhead.trans htrans htail

end Within

end Traced

end EdgeSlice
