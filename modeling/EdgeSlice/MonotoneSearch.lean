import Mathlib.Order.Lattice.Nat
import Mathlib.Order.Bounds.Basic

namespace EdgeSlice.MonotoneSearch

variable {β : Type*} [LinearOrder β]

/-- Going down while the value is above the target. -/
def descend (f : ℕ → β) (target : β) : ℕ → ℕ
  | 0 => 0
  | m + 1 => if target < f (m + 1) then descend f target m else m + 1

/-- Going up, at most to `cap`, while the value is below the target. -/
def ascend (f : ℕ → β) (target : β) (cap : ℕ) : ℕ → ℕ → ℕ
  | 0, m => m
  | fuel + 1, m => if f m < target ∧ m < cap then ascend f target cap fuel (m + 1) else m

variable {f : ℕ → β} {target : β} {cap : ℕ}

variable (f target) in
theorem descend_le (m : ℕ) : descend f target m ≤ m := by
  induction m with
  | zero => exact le_rfl
  | succ m ih =>
    rw [descend]
    split
    · omega
    · exact le_rfl

variable (f target) in
theorem descend_stop (m : ℕ) : f (descend f target m) ≤ target ∨ descend f target m = 0 := by
  induction m with
  | zero => exact .inr rfl
  | succ m ih =>
    rw [descend]
    split
    · exact ih
    · next h => exact .inl (not_lt.mp h)

variable (f target cap) in
theorem ascend_spec (fuel : ℕ) {m : ℕ} (hfuel : cap ≤ fuel + m) (hm : m ≤ cap) :
    m ≤ ascend f target cap fuel m ∧ ascend f target cap fuel m ≤ cap ∧
      (target ≤ f (ascend f target cap fuel m) ∨ ascend f target cap fuel m = cap) ∧
      ∀ k, m ≤ k → k < ascend f target cap fuel m → f k < target := by
  induction fuel generalizing m with
  | zero =>
    have hcap : m = cap := by omega
    exact ⟨le_rfl, hm, .inr hcap, fun k hk hlt ↦ absurd hlt (not_lt.mpr hk)⟩
  | succ fuel ih =>
    rw [ascend]
    split
    · next h =>
      obtain ⟨hle, hcap, hstop, hbelow⟩ := @ih (m + 1) (by omega) h.2
      refine ⟨by omega, hcap, hstop, fun k hk hlt ↦ ?_⟩
      rcases Nat.eq_or_lt_of_le hk with rfl | hk
      · exact h.1
      · exact hbelow k hk hlt
    · next h =>
      refine ⟨le_rfl, hm, ?_, fun k hk hlt ↦ absurd hlt (not_lt.mpr hk)⟩
      by_cases hlt : f m < target
      · exact .inr (le_antisymm hm (not_lt.mp fun hcap ↦ h ⟨hlt, hcap⟩))
      · exact .inl (not_lt.mp hlt)

variable (target) in
/-- Down and up again ends at the least value that reaches the target, or below
the target when no value reaches it. -/
theorem search_spec (hmono : ∀ i j, i ≤ j → j ≤ cap → f i ≤ f j) {fuel m : ℕ}
    (hfuel : cap ≤ fuel) (hm : m ≤ cap) :
    (target ≤ f (ascend f target cap fuel (descend f target m)) →
      ∀ k ≤ cap, target ≤ f k → f (ascend f target cap fuel (descend f target m)) ≤ f k) ∧
    (f (ascend f target cap fuel (descend f target m)) < target → ∀ k ≤ cap, f k < target) := by
  have hdown := descend_le f target m
  have hstart := descend_stop f target m
  obtain ⟨hle, hcap, hstop, hbelow⟩ :=
    ascend_spec f target cap fuel (hfuel.trans (Nat.le_add_right _ _)) (hdown.trans hm)
  set d := descend f target m
  set r := ascend f target cap fuel d
  constructor
  · intro hr k hk hfk
    rcases Nat.lt_or_ge k r with hlt | hge
    · -- only the start of the way up can reach the target below `r`
      have hkd : k < d := by
        by_contra hkd
        exact absurd hfk (not_le.mpr (hbelow k (not_lt.mp hkd) hlt))
      have hd : f d ≤ target := hstart.resolve_right (by omega)
      have hfd : f d = target := le_antisymm hd (hfk.trans (hmono k d hkd.le (hle.trans hcap)))
      have hrd : r = d := by
        by_contra hne
        exact absurd hfd (hbelow d le_rfl (by omega)).ne
      rw [hrd, hfd]
      exact hfk
    · exact hmono r k hge hk
  · intro hr k hk
    have hrcap : r = cap := hstop.resolve_left (not_le.mpr hr)
    exact (hmono k r (by omega) hcap).trans_lt hr

variable (target) in
/-- The values up to `cap` that reach the target have the one found as their
least element. -/
theorem search_isLeast (hmono : ∀ i j, i ≤ j → j ≤ cap → f i ≤ f j) {fuel m : ℕ}
    (hfuel : cap ≤ fuel) (hm : m ≤ cap) (P : β → Prop) :
    (∃ t, IsLeast {t | target ≤ t ∧ ∃ k ≤ cap, f k = t} t ∧ P t) ↔
      target ≤ f (ascend f target cap fuel (descend f target m)) ∧
        P (f (ascend f target cap fuel (descend f target m))) := by
  obtain ⟨hleast, hnone⟩ := search_spec target hmono hfuel hm
  have hcap := (ascend_spec f target cap fuel (hfuel.trans (Nat.le_add_right _ _))
    ((descend_le f target m).trans hm)).2.1
  constructor
  · intro h
    obtain ⟨t, ⟨⟨ht, k, hk, rfl⟩, hmin⟩, hP⟩ := h
    have hr : target ≤ f (ascend f target cap fuel (descend f target m)) := by
      by_contra hlt
      exact absurd ht (not_le.mpr (hnone (not_le.mp hlt) k hk))
    have heq : f (ascend f target cap fuel (descend f target m)) = f k :=
      le_antisymm (hleast hr k hk ht) (hmin ⟨hr, _, hcap, rfl⟩)
    exact ⟨hr, heq ▸ hP⟩
  · intro h
    obtain ⟨hr, hP⟩ := h
    refine ⟨_, ⟨⟨hr, _, hcap, rfl⟩, ?_⟩, hP⟩
    intro t h
    obtain ⟨ht, k, hk, rfl⟩ := h
    exact hleast hr k hk ht

section Bisection

variable (p : ℕ → Bool)

/-- Halving the interval between `lo` and `hi`, up where `p` holds of the middle. -/
def bisect (lo hi : ℕ) : ℕ :=
  if 1 < hi - lo then
    if p ((hi + lo) / 2) then bisect ((hi + lo) / 2) hi else bisect lo ((hi + lo) / 2)
  else lo
termination_by hi - lo

/-- It ends between two neighbours, the lower one the start or a place where `p` holds, the
upper one the end or a place where `p` fails. -/
theorem bisect_spec (lo hi : ℕ) (hlt : lo < hi) :
    (lo ≤ bisect p lo hi ∧ bisect p lo hi < hi) ∧
      (bisect p lo hi = lo ∨ p (bisect p lo hi) = true) ∧
      (bisect p lo hi + 1 = hi ∨ p (bisect p lo hi + 1) = false) := by
  fun_induction bisect p lo hi with
  | case1 lo hi hgap hp ih =>
    obtain ⟨⟨hlo, hhi⟩, hlower, hupper⟩ := ih (by omega)
    refine ⟨⟨by omega, hhi⟩, .inr ?_, hupper⟩
    exact hlower.elim (fun h ↦ by rwa [h]) id
  | case2 lo hi hgap hp ih =>
    obtain ⟨⟨hlo, hhi⟩, hlower, hupper⟩ := ih (by omega)
    refine ⟨⟨hlo, by omega⟩, hlower, .inr ?_⟩
    exact hupper.elim (fun h ↦ by rwa [h, ← Bool.not_eq_true]) id
  | case3 lo hi hgap => exact ⟨⟨le_rfl, hlt⟩, .inl rfl, .inl (by omega)⟩

end Bisection

end EdgeSlice.MonotoneSearch
