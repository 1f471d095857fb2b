import Mathlib.Data.Int.Order.Basic
import Mathlib.Order.MinMax
import Mathlib.Data.List.TakeWhile

/-! Disjoint ranges in increasing order, as a list of things that have a first position and a position
behind their last one. -/

namespace EdgeSlice.OrderedRanges

variable {α : Type*} {start stop : α → ℤ} {x y : α} {xs ys : List α} {a b c : ℤ}

structure Ordered (start stop : α → ℤ) (xs : List α) : Prop where
  nonempty : ∀ x ∈ xs, start x < stop x
  disjoint : xs.Pairwise fun x y ↦ stop x ≤ start y

/-- The position is in one of the ranges. -/
def Covered (start stop : α → ℤ) (xs : List α) (c : ℤ) : Prop := ∃ x ∈ xs, start x ≤ c ∧ c < stop x

theorem Ordered.tail (h : Ordered start stop (x :: xs)) : Ordered start stop xs where
  nonempty y hy := h.nonempty y (List.mem_cons_of_mem _ hy)
  disjoint := (List.pairwise_cons.mp h.disjoint).2

theorem Ordered.sublist (h : Ordered start stop xs) (hsub : ys.Sublist xs) : Ordered start stop ys where
  nonempty y hy := h.nonempty y (hsub.subset hy)
  disjoint := h.disjoint.sublist hsub

theorem Ordered.stop_le (h : Ordered start stop (x :: xs)) (hy : y ∈ xs) : stop x ≤ start y :=
  (List.pairwise_cons.mp h.disjoint).1 y hy

theorem Ordered.stop_le_last {x : α} (h : Ordered start stop (xs ++ [x])) (hy : y ∈ xs ++ [x]) : stop y ≤ stop x := by
  rcases List.mem_append.mp hy with hy | hy
  · have hle := (List.pairwise_append.mp h.disjoint).2.2 y hy x List.mem_cons_self
    have hne := h.nonempty x (List.mem_append_right _ List.mem_cons_self)
    omega
  · rw [List.mem_singleton.mp hy]

/-- Behind the ranges that end at `a` or before, all ranges end behind `a`. -/
theorem Ordered.lt_stop_of_mem_dropWhile (h : Ordered start stop xs)
    (hx : x ∈ xs.dropWhile fun x ↦ stop x ≤ a) : a < stop x := by
  induction xs with
  | nil => cases hx
  | cons y xs ih =>
    by_cases hy : stop y ≤ a
    · rw [List.dropWhile_cons_of_pos (by simpa using hy)] at hx
      exact ih h.tail hx
    · rw [List.dropWhile_cons_of_neg (by simpa using hy)] at hx
      rcases List.mem_cons.mp hx with rfl | hx
      · exact not_le.mp hy
      · have hle := h.stop_le hx
        have hlt := h.nonempty x (List.mem_cons_of_mem _ hx)
        omega

theorem Ordered.mem_dropWhile_iff (h : Ordered start stop xs) :
    (x ∈ xs.dropWhile fun x ↦ stop x ≤ a) ↔ x ∈ xs ∧ a < stop x := by
  constructor
  · intro hx
    exact ⟨(List.dropWhile_sublist _).subset hx, h.lt_stop_of_mem_dropWhile hx⟩
  · rintro ⟨hx, hlt⟩
    rw [← List.takeWhile_append_dropWhile (l := xs) (p := fun x ↦ stop x ≤ a)] at hx
    refine (List.mem_append.mp hx).resolve_left fun hmem ↦ ?_
    have hle := List.mem_takeWhile_imp hmem
    rw [decide_eq_true_iff] at hle
    exact absurd hlt (not_lt.mpr hle)

theorem stop_le_of_mem_takeWhile (hx : x ∈ xs.takeWhile fun x ↦ stop x ≤ a) : stop x ≤ a := by
  have h := List.mem_takeWhile_imp hx
  simpa using h

/-- The ranges that follow one another from `a` on. -/
def row (start stop : α → ℤ) : ℤ → List α → List α
  | _, [] => []
  | a, x :: xs => if start x = a then x :: row start stop (stop x) xs else []

/-- Where they end. -/
def rowStop (start stop : α → ℤ) : ℤ → List α → ℤ
  | a, [] => a
  | a, x :: xs => if start x = a then rowStop start stop (stop x) xs else a

theorem row_append_drop (a : ℤ) (xs : List α) :
    row start stop a xs ++ xs.drop (row start stop a xs).length = xs := by
  induction xs generalizing a with
  | nil => rfl
  | cons x xs ih =>
    rw [row]
    split_ifs with h
    · rw [List.length_cons, List.drop_succ_cons, List.cons_append, ih]
    · rfl

theorem mem_of_mem_row (hx : x ∈ row start stop a xs) : x ∈ xs :=
  (List.prefix_iff_eq_append.mpr (row_append_drop a xs)).subset hx

theorem Ordered.le_rowStop (h : Ordered start stop xs) : a ≤ rowStop start stop a xs := by
  induction xs generalizing a with
  | nil => exact le_rfl
  | cons x xs ih =>
    rw [rowStop]
    split_ifs with heq
    · have hle : stop x ≤ rowStop start stop (stop x) xs := ih h.tail
      have hlt := h.nonempty x List.mem_cons_self
      omega
    · exact le_rfl

theorem rowStop_le (ha : a ≤ b) (hstop : ∀ x ∈ xs, stop x ≤ b) : rowStop start stop a xs ≤ b := by
  induction xs generalizing a with
  | nil => exact ha
  | cons x xs ih =>
    obtain ⟨hx, hxs⟩ := List.forall_mem_cons.mp hstop
    rw [rowStop]
    split_ifs
    · exact ih hx hxs
    · exact ha

/-- They have no gap. -/
theorem Ordered.covered_row_iff (h : Ordered start stop xs) :
    Covered start stop (row start stop a xs) c ↔ a ≤ c ∧ c < rowStop start stop a xs := by
  induction xs generalizing a with
  | nil =>
    constructor
    · rintro ⟨x, hx, -⟩
      cases hx
    · rintro ⟨hle, hlt⟩
      exact absurd hlt (not_lt.mpr hle)
  | cons x xs ih =>
    rw [row, rowStop]
    have hnonempty := h.nonempty x List.mem_cons_self
    by_cases heq : start x = a
    · rw [if_pos heq, if_pos heq]
      have hle : stop x ≤ rowStop start stop (stop x) xs := h.tail.le_rowStop
      constructor
      · rintro ⟨y, hy, hin⟩
        rcases List.mem_cons.mp hy with rfl | hy
        · omega
        · have hrest := (ih h.tail).mp ⟨y, hy, hin⟩
          omega
      · intro hin
        rcases lt_or_ge c (stop x) with hlt | hge
        · exact ⟨x, List.mem_cons_self, by omega, hlt⟩
        · obtain ⟨y, hy, hc⟩ := (ih h.tail).mpr ⟨hge, hin.2⟩
          exact ⟨y, List.mem_cons_of_mem _ hy, hc⟩
    · rw [if_neg heq, if_neg heq]
      constructor
      · rintro ⟨y, hy, -⟩
        cases hy
      · rintro ⟨hle, hlt⟩
        exact absurd hlt (not_lt.mpr hle)

theorem Ordered.stop_le_rowStop (h : Ordered start stop xs) (hx : x ∈ row start stop a xs) :
    stop x ≤ rowStop start stop a xs := by
  have hlt := h.nonempty x (mem_of_mem_row hx)
  have hcovered : Covered start stop (row start stop a xs) (stop x - 1) := ⟨x, hx, by omega, by omega⟩
  have hin := h.covered_row_iff.mp hcovered
  omega

/-- Behind them there is a gap. -/
theorem Ordered.rowStop_lt (h : Ordered start stop xs) (ha : ∀ x ∈ xs, a ≤ start x)
    (hx : x ∈ xs.drop (row start stop a xs).length) : rowStop start stop a xs < start x := by
  induction xs generalizing a with
  | nil => cases hx
  | cons y xs ih =>
    rw [row] at hx
    rw [rowStop]
    by_cases heq : start y = a
    · rw [if_pos heq] at hx ⊢
      rw [List.length_cons, List.drop_succ_cons] at hx
      exact ih h.tail (fun z hz ↦ h.stop_le hz) hx
    · rw [if_neg heq] at hx ⊢
      have hlt : a < start y := lt_of_le_of_ne (ha y List.mem_cons_self) (Ne.symm heq)
      rw [List.length_nil, List.drop_zero] at hx
      rcases List.mem_cons.mp hx with rfl | hx
      · exact hlt
      · have hle := h.stop_le hx
        have hne := h.nonempty y List.mem_cons_self
        omega

/-- The last of them ends there. -/
theorem stop_of_getLast_row (hx : x ∈ (row start stop a xs).getLast?) : stop x = rowStop start stop a xs := by
  induction xs generalizing a with
  | nil => cases hx
  | cons y xs ih =>
    rw [row] at hx
    rw [rowStop]
    by_cases heq : start y = a
    · rw [if_pos heq] at hx ⊢
      cases hrow : row start stop (stop y) xs with
      | nil =>
        rw [hrow, List.getLast?_singleton] at hx
        cases hx
        cases xs with
        | nil => rfl
        | cons z zs =>
          rw [row] at hrow
          rw [rowStop]
          split_ifs at hrow ⊢ with hz
          rfl
      | cons z zs =>
        rw [hrow, List.getLast?_cons_cons, ← hrow] at hx
        exact ih hx
    · rw [if_neg heq] at hx
      cases hx

theorem row_of_lt (h : ∀ x ∈ xs, a < start x) : row start stop a xs = [] ∧ rowStop start stop a xs = a := by
  cases xs with
  | nil => exact ⟨rfl, rfl⟩
  | cons x xs =>
    have hne : start x ≠ a := (h x List.mem_cons_self).ne'
    exact ⟨if_neg hne, if_neg hne⟩

theorem stop_getLast_row (x : α) (xs : List α) :
    stop ((row start stop (stop x) xs).getLast?.getD x) = rowStop start stop (stop x) xs := by
  cases hrow : row start stop (stop x) xs with
  | nil =>
    cases xs with
    | nil => rfl
    | cons y ys =>
      rw [row] at hrow
      rw [rowStop]
      split_ifs at hrow ⊢ with hy
      rfl
  | cons y ys =>
    rw [← hrow]
    refine stop_of_getLast_row ?_
    rw [hrow, List.getLast?_cons, Option.getD_some]
    rfl

/-- The ranges before one that holds `a` are those that end at `a` or before. -/
theorem Ordered.takeWhile_eq {pre post : List α} (h : Ordered start stop (pre ++ x :: post))
    (hle : start x ≤ a) (hlt : a < stop x) : (pre ++ x :: post).takeWhile (fun y ↦ stop y ≤ a) = pre := by
  have hpre (y : α) (hy : y ∈ pre) : decide (stop y ≤ a) = true := by
    have hcross := (List.pairwise_append.mp h.disjoint).2.2 y hy x List.mem_cons_self
    exact decide_eq_true (hcross.trans hle)
  rw [List.takeWhile_append_of_pos hpre, List.takeWhile_cons_of_neg (by simpa using hlt), List.append_nil]

theorem Ordered.dropWhile_eq {pre post : List α} (h : Ordered start stop (pre ++ x :: post))
    (hle : start x ≤ a) (hlt : a < stop x) :
    (pre ++ x :: post).dropWhile (fun y ↦ stop y ≤ a) = x :: post := by
  have happend := List.takeWhile_append_dropWhile (l := pre ++ x :: post) (p := fun y ↦ stop y ≤ a)
  rw [h.takeWhile_eq hle hlt] at happend
  exact List.append_cancel_left happend

/-- The position `b`, or the first position of the ranges if that comes before. -/
def cut (start : α → ℤ) (b : ℤ) : List α → ℤ
  | [] => b
  | x :: _ => min b (start x)

theorem cut_le (b : ℤ) (xs : List α) : cut start b xs ≤ b := by
  cases xs with
  | nil => exact le_rfl
  | cons x xs => exact min_le_left _ _

theorem Ordered.cut_le_start (h : Ordered start stop xs) (hx : x ∈ xs) : cut start b xs ≤ start x := by
  cases xs with
  | nil => cases hx
  | cons y xs =>
    refine (min_le_right _ _).trans ?_
    rcases List.mem_cons.mp hx with rfl | hx
    · exact le_rfl
    · exact (h.nonempty y List.mem_cons_self).le.trans (h.stop_le hx)

theorem lt_cut (ha : a < b) (hstart : ∀ x ∈ xs, a < start x) : a < cut start b xs := by
  cases xs with
  | nil => exact ha
  | cons x xs => exact lt_min ha (hstart x List.mem_cons_self)

/-- From there to `b` there is no gap, if the ranges end behind `b`. -/
theorem covered_of_cut_le (hstop : ∀ x ∈ xs, b < stop x) (hle : cut start b xs ≤ c) (hlt : c < b) :
    Covered start stop xs c := by
  cases xs with
  | nil => exact absurd hlt (not_lt.mpr hle)
  | cons x xs =>
    have hx : start x ≤ c := (min_le_iff.mp hle).resolve_left (not_le.mpr hlt)
    exact ⟨x, List.mem_cons_self, hx, hlt.trans (hstop x List.mem_cons_self)⟩

/-- The first position comes before `b` if one of the ranges does. -/
theorem Ordered.cut_lt_iff (h : Ordered start stop xs) : cut start b xs < b ↔ ∃ x ∈ xs, start x < b := by
  constructor
  · intro hlt
    cases xs with
    | nil => exact absurd hlt (lt_irrefl _)
    | cons x xs => exact ⟨x, List.mem_cons_self, (min_lt_iff.mp hlt).resolve_left (lt_irrefl _)⟩
  · rintro ⟨x, hx, hlt⟩
    exact (h.cut_le_start hx).trans_lt hlt

theorem pairwise_insert {R : α → α → Prop} {pre post : List α} (h : (pre ++ post).Pairwise R)
    (hpre : ∀ y ∈ pre, R y x) (hpost : ∀ y ∈ post, R x y) : (pre ++ x :: post).Pairwise R := by
  obtain ⟨hl, hr, hcross⟩ := List.pairwise_append.mp h
  refine List.pairwise_append.mpr ⟨hl, List.pairwise_cons.mpr ⟨hpost, hr⟩, fun y hy z hz ↦ ?_⟩
  rcases List.mem_cons.mp hz with rfl | hz
  · exact hpre y hy
  · exact hcross y hy z hz

/-- In a list, `mid` is replaced by `x`, which together with the rest holds all of `T`. -/
theorem exists_splice_iff {β : Type*} {Holds : α → β → Prop} {T : β → Prop} {pre mid post : List α} {b : β}
    (hx : ∀ b, Holds x b → T b) (hmid : ∀ y ∈ mid, ∀ b, Holds y b → T b)
    (hall : ∀ b, T b → Holds x b ∨ (∃ y ∈ pre, Holds y b) ∨ ∃ y ∈ post, Holds y b) :
    (∃ y ∈ pre ++ x :: post, Holds y b) ↔ (∃ y ∈ pre ++ (mid ++ post), Holds y b) ∨ T b := by
  have hT (h : T b) : ∃ y ∈ pre ++ x :: post, Holds y b := by
    rcases hall b h with hb | ⟨y, hy, hb⟩ | ⟨y, hy, hb⟩
    · exact ⟨x, List.mem_append_right _ List.mem_cons_self, hb⟩
    · exact ⟨y, List.mem_append_left _ hy, hb⟩
    · exact ⟨y, List.mem_append_right _ (List.mem_cons_of_mem _ hy), hb⟩
  constructor
  · rintro ⟨y, hy, hb⟩
    rcases List.mem_append.mp hy with hy | hy
    · exact .inl ⟨y, List.mem_append_left _ hy, hb⟩
    · rcases List.mem_cons.mp hy with rfl | hy
      · exact .inr (hx b hb)
      · exact .inl ⟨y, List.mem_append_right _ (List.mem_append_right _ hy), hb⟩
  · rintro (⟨y, hy, hb⟩ | h)
    · rcases List.mem_append.mp hy with hy | hy
      · exact ⟨y, List.mem_append_left _ hy, hb⟩
      · rcases List.mem_append.mp hy with hy | hy
        · exact hT (hmid y hy b hb)
        · exact ⟨y, List.mem_append_right _ (List.mem_cons_of_mem _ hy), hb⟩
    · exact hT h

end EdgeSlice.OrderedRanges
