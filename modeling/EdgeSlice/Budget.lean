import Mathlib.Algebra.BigOperators.Group.List.Basic
import Mathlib.Algebra.GroupWithZero.Nat

/-! Demands that are met in order, up to the first one that there is no room for. A demand uses up
some room, and may need more than it uses up. -/

namespace EdgeSlice.Budget

variable {α : Type*} {need use : α → ℕ} {room : ℕ} {qs : List α} {q : α}

/-- The demands that are met. -/
def fitting (need use : α → ℕ) : ℕ → List α → List α
  | _, [] => []
  | room, q :: qs => if need q ≤ room then q :: fitting need use (room - use q) qs else []

theorem fitting_cons_of_le (h : need q ≤ room) :
    fitting need use room (q :: qs) = q :: fitting need use (room - use q) qs := if_pos h

theorem fitting_cons_of_lt (h : room < need q) : fitting need use room (q :: qs) = [] :=
  if_neg (Nat.not_le.mpr h)

theorem fitting_isPrefix (room : ℕ) (qs : List α) : fitting need use room qs <+: qs := by
  induction qs generalizing room with
  | nil => exact List.prefix_refl _
  | cons q qs ih =>
    rw [fitting]
    split_ifs
    · exact List.cons_prefix_cons.mpr ⟨rfl, ih _⟩
    · exact List.nil_prefix

theorem sum_use_le (huse : ∀ q ∈ qs, use q ≤ need q) : ((fitting need use room qs).map use).sum ≤ room := by
  induction qs generalizing room with
  | nil => exact Nat.zero_le _
  | cons q qs ih =>
    obtain ⟨hq, hqs⟩ := List.forall_mem_cons.mp huse
    rw [fitting]
    split_ifs with hfit
    · have hrest : ((fitting need use (room - use q) qs).map use).sum ≤ room - use q := ih hqs
      rw [List.map_cons, List.sum_cons]
      omega
    · exact Nat.zero_le _

/-- The first demand that is not met, if there is one. -/
def unmet (need use : α → ℕ) (room : ℕ) (qs : List α) : Option α :=
  (qs.drop (fitting need use room qs).length).head?

theorem unmet_cons_of_le (h : need q ≤ room) :
    unmet need use room (q :: qs) = unmet need use (room - use q) qs := by
  rw [unmet, fitting_cons_of_le h, List.length_cons, List.drop_succ_cons, unmet]

theorem unmet_cons_of_lt (h : room < need q) : unmet need use room (q :: qs) = some q := by
  rw [unmet, fitting_cons_of_lt h]
  rfl

theorem fitting_append_drop (need use : α → ℕ) (room : ℕ) (qs : List α) :
    fitting need use room qs ++ qs.drop (fitting need use room qs).length = qs :=
  List.prefix_iff_eq_append.mp (fitting_isPrefix room qs)

theorem fitting_eq_of_unmet (h : unmet need use room qs = none) : fitting need use room qs = qs := by
  have happend := fitting_append_drop need use room qs
  rw [unmet, List.head?_eq_none_iff] at h
  rw [h, List.append_nil] at happend
  exact happend

theorem eq_append_of_unmet (h : unmet need use room qs = some q) :
    ∃ rest, qs = fitting need use room qs ++ q :: rest := by
  have happend := fitting_append_drop need use room qs
  rw [unmet, List.head?_eq_some_iff] at h
  obtain ⟨rest, hrest⟩ := h
  rw [hrest] at happend
  exact ⟨rest, happend.symm⟩

/-- Of demands for the elements of a list those for its first elements are met. -/
theorem exists_take {β : Type*} (f : β → α) (need use : α → ℕ) (room : ℕ) (bs : List β) :
    ∃ m, fitting need use room (bs.map f) = (bs.take m).map f ∧
      unmet need use room (bs.map f) = (bs.drop m).head?.map f := by
  refine ⟨(fitting need use room (bs.map f)).length, ?_, ?_⟩
  · rw [List.map_take]
    exact List.prefix_iff_eq_take.mp (fitting_isPrefix room _)
  · rw [unmet, ← List.map_drop, List.head?_map]

@[simp] theorem unmet_nil : unmet need use room [] = none := rfl

theorem unmet_cons_eq_none :
    unmet need use room (q :: qs) = none ↔ need q ≤ room ∧ unmet need use (room - use q) qs = none := by
  rcases Nat.lt_or_ge room (need q) with hlt | hle
  · simp [unmet_cons_of_lt hlt, Nat.not_le.mpr hlt]
  · simp [unmet_cons_of_le hle, hle]

theorem unmet_append_eq_none {ps : List α} :
    unmet need use room (ps ++ qs) = none ↔
      unmet need use room ps = none ∧ unmet need use (room - (ps.map use).sum) qs = none := by
  induction ps generalizing room with
  | nil => simp
  | cons p ps ih =>
    rw [List.cons_append, unmet_cons_eq_none, unmet_cons_eq_none, ih, List.map_cons, List.sum_cons, Nat.sub_sub,
      and_assoc]

/-- Demands that need what they use are all met if there is room for their sum. -/
theorem unmet_eq_none_of_eq (h : ∀ q ∈ qs, use q = need q) :
    unmet need use room qs = none ↔ (qs.map use).sum ≤ room := by
  induction qs generalizing room with
  | nil => simp
  | cons q qs ih =>
    obtain ⟨hq, hqs⟩ := List.forall_mem_cons.mp h
    rw [unmet_cons_eq_none, ih hqs, List.map_cons, List.sum_cons]
    omega

/-- Demands of at most `c` are all met if there is room for `c` each. -/
theorem fitting_eq_self {c : ℕ} (hneed : ∀ q ∈ qs, need q ≤ c) (huse : ∀ q ∈ qs, use q ≤ c)
    (hroom : c * qs.length ≤ room) : fitting need use room qs = qs := by
  induction qs generalizing room with
  | nil => rfl
  | cons q qs ih =>
    obtain ⟨hq, hqs⟩ := List.forall_mem_cons.mp hneed
    obtain ⟨hq', hqs'⟩ := List.forall_mem_cons.mp huse
    rw [List.length_cons, Nat.mul_succ] at hroom
    rw [fitting_cons_of_le (by omega), ih hqs hqs' (by omega)]

end EdgeSlice.Budget
