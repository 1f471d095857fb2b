import EdgeSlice.CInteger
import Mathlib.Algebra.Order.BigOperators.Group.List
import Mathlib.Algebra.Order.Group.Int
import Mathlib.Data.List.Basic

namespace EdgeSlice.Countdown

variable {α β ρ : Type*} {more : ρ → Bool} {spend : ρ → α → ρ} {as : List α} {r : ρ}

/-- The elements that a counter pays for, from the front of a list. -/
def paid (more : ρ → Bool) (spend : ρ → α → ρ) : List α → ρ → List α
  | [], _ => []
  | a :: as, r => if more r then a :: paid more spend as (spend r a) else []

/-- The loop that walks along a list and pays for the elements it wants. -/
def walk (more : ρ → Bool) (spend : ρ → α → ρ) (wanted : α → Bool) (write : β → α → β) :
    List α → ρ → β → β
  | [], _, b => b
  | a :: as, r, b =>
    if more r then
      if wanted a then walk more spend wanted write as (spend r a) (write b a)
      else walk more spend wanted write as r b
    else b

theorem paid_of_not_more (as : List α) (h : more r = false) : paid more spend as r = [] := by
  cases as with
  | nil => rfl
  | cons a as => rw [paid, h, if_neg Bool.false_ne_true]

theorem walk_eq (wanted : α → Bool) (write : β → α → β) (b : β) :
    walk more spend wanted write as r b =
      (paid more spend (as.filter wanted) r).foldl write b := by
  induction as generalizing r b with
  | nil => rfl
  | cons a as ih =>
    rw [walk]
    split
    · next hmore =>
      cases hwanted : wanted a with
      | true => rw [if_pos rfl, ih, List.filter_cons_of_pos hwanted, paid, if_pos hmore]; rfl
      | false => rw [if_neg Bool.false_ne_true, ih, List.filter_cons_of_neg (by simp [hwanted])]
    · next hmore => rw [paid_of_not_more _ (Bool.eq_false_iff.mpr hmore)]; rfl

theorem paid_start (as : List α) (r : ρ) : paid more spend as r <+: as := by
  induction as generalizing r with
  | nil => exact List.prefix_rfl
  | cons a as ih =>
    rw [paid]
    split
    · exact (List.prefix_cons_inj a).mpr (ih _)
    · exact List.nil_prefix

/-- A counter that covers the cost of all elements pays for all. -/
theorem paid_all (value : ρ → ℤ) (cost : α → ℕ) (hmore : ∀ r, 0 < value r → more r = true)
    (hspend : ∀ r a, value r - cost a ≤ value (spend r a)) (hpos : ∀ a ∈ as, 0 < cost a)
    (h : (as.map cost).sum ≤ value r) : paid more spend as r = as := by
  induction as generalizing r with
  | nil => rfl
  | cons a as ih =>
    obtain ⟨ha, has⟩ := List.forall_mem_cons.mp hpos
    rw [List.map_cons, List.sum_cons] at h
    have hleft := hspend r a
    rw [paid, if_pos (hmore r (by omega)), ih has (by omega)]

section Integer

variable {cost : α → ℤ}

/-- A counter that holds the cost of the first elements pays for these. -/
theorem paid_front (front back : List α) (hpos : ∀ a ∈ front, 0 < cost a) :
    paid (fun left : ℤ ↦ decide (0 < left)) (fun left a ↦ left - cost a) (front ++ back)
      (front.map cost).sum = front := by
  induction front with
  | nil => exact paid_of_not_more _ rfl
  | cons a front ih =>
    obtain ⟨ha, hfront⟩ := List.forall_mem_cons.mp hpos
    rw [List.map_cons, List.sum_cons]
    have hsum : 0 ≤ (front.map cost).sum :=
      List.sum_nonneg (List.forall_mem_map.mpr fun b hb ↦ (hfront b hb).le)
    have hmore : 0 < cost a + (front.map cost).sum := by omega
    rw [List.cons_append, paid, if_pos (decide_eq_true hmore), add_sub_cancel_left, ih hfront]

/-- Where every element costs 1, the counter is the number of elements. -/
theorem paid_unit (as : List α) (hcost : ∀ a ∈ as, cost a = 1) (n : ℤ) :
    paid (fun left : ℤ ↦ decide (0 < left)) (fun left a ↦ left - cost a) as n =
      as.take n.toNat := by
  induction as generalizing n with
  | nil => rw [paid, List.take_nil]
  | cons a as ih =>
    obtain ⟨ha, has⟩ := List.forall_mem_cons.mp hcost
    rw [paid]
    split
    · next hmore =>
      have hn : n.toNat = (n - 1).toNat + 1 := by
        rw [decide_eq_true_eq] at hmore
        omega
      rw [hn, List.take_succ_cons, ha, ih has]
    · next hmore =>
      have hn : n.toNat = 0 := by
        rw [decide_eq_true_eq] at hmore
        omega
      rw [hn, List.take_zero]

end Integer

section Sixteen

variable (cost : α → ℤ)

/-- A 16-bit counter that holds the cost of the first elements pays for these. -/
theorem paid_exact (front back : List α) (hpos : ∀ a ∈ front, 0 < cost a)
    (hsmall : (front.map cost).sum < 65536) :
    paid (fun left : ℕ ↦ decide (0 < left)) (fun left a ↦ uint16 (left - cost a)) (front ++ back)
      (uint16 (front.map cost).sum) = front := by
  induction front with
  | nil => exact paid_of_not_more _ rfl
  | cons a front ih =>
    obtain ⟨ha, hfront⟩ := List.forall_mem_cons.mp hpos
    rw [List.map_cons, List.sum_cons] at hsmall ⊢
    have hsum : 0 ≤ (front.map cost).sum :=
      List.sum_nonneg (List.forall_mem_map.mpr fun b hb ↦ (hfront b hb).le)
    have hmore : 0 < uint16 (cost a + (front.map cost).sum) := by
      rw [uint16]
      omega
    have hleft : uint16 (uint16 (cost a + (front.map cost).sum) - cost a) =
        uint16 (front.map cost).sum := by
      simp only [uint16]
      omega
    rw [List.cons_append, paid, if_pos (decide_eq_true hmore), hleft, ih hfront (by omega)]

/-- A 16-bit counter stops where it has paid exactly, and else wraps and pays for all. -/
theorem paid_wrapping (as : List α) (hpos : ∀ a ∈ as, 0 ≤ cost a) {n : ℤ} (hn : n < 65536)
    (hsmall : (as.map cost).sum < 65536 + n) :
    paid (fun left : ℕ ↦ decide (0 < left)) (fun left a ↦ uint16 (left - cost a)) as (uint16 n) = as ∨
      ((paid (fun left : ℕ ↦ decide (0 < left)) (fun left a ↦ uint16 (left - cost a)) as
        (uint16 n)).map cost).sum = n := by
  induction as generalizing n with
  | nil => exact .inl rfl
  | cons a as ih =>
    obtain ⟨ha, has⟩ := List.forall_mem_cons.mp hpos
    rw [List.map_cons, List.sum_cons] at hsmall
    have hsum : 0 ≤ (as.map cost).sum := List.sum_nonneg (List.forall_mem_map.mpr has)
    by_cases hmore : 0 < uint16 n
    · have hleft : uint16 (uint16 n - cost a) = uint16 (n - cost a) := by
        simp only [uint16]
        omega
      rw [paid, if_pos (decide_eq_true hmore), hleft, List.map_cons, List.sum_cons, List.cons_inj_right]
      rcases ih has (show n - cost a < 65536 by omega) (by omega) with hall | hexact
      · exact .inl hall
      · exact .inr (by omega)
    · have hzero : n = 0 := by
        rw [uint16] at hmore
        omega
      have hnone : paid (fun left : ℕ ↦ decide (0 < left)) (fun left a ↦ uint16 (left - cost a))
          (a :: as) (uint16 n) = [] := paid_of_not_more _ (decide_eq_false hmore)
      rw [hnone]
      exact .inr hzero.symm

end Sixteen

end EdgeSlice.Countdown
