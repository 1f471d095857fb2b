import Mathlib.Data.List.Nodup
import Mathlib.Logic.Function.Basic
import Mathlib.Data.Int.Order.Basic

/-! Lists linked through an array of successors, in which a negative number is the end. -/

namespace EdgeSlice

structure SuccessorList where
  head : ℤ
  next : ℕ → ℤ

namespace SuccessorList

/-- The way from `a` over the places `xs` to `t`. -/
def Way (next : ℕ → ℤ) : ℤ → List ℕ → ℤ → Prop
  | a, [], t => a = t
  | a, x :: xs, t => a = x ∧ Way next (next x) xs t

/-- A loop along the successors visits the places `xs` and ends. -/
def Lists (L : SuccessorList) (xs : List ℕ) : Prop := ∃ t < 0, Way L.next L.head xs t

variable {next next' : ℕ → ℤ} {a t t' : ℤ} {x : ℕ} {xs ys : List ℕ}

theorem way_append : Way next a (xs ++ ys) t ↔ ∃ b, Way next a xs b ∧ Way next b ys t := by
  induction xs generalizing a with
  | nil => simp [Way]
  | cons x xs ih => simp only [List.cons_append, Way, ih, ← exists_and_left, and_assoc]

/-- A way over other places first does not start at a place. -/
theorem Way.start_ne (h : Way next a (xs ++ x :: ys) t) (hnodup : (xs ++ x :: ys).Nodup)
    (hxs : xs ≠ []) : a ≠ x := by
  cases xs with
  | nil => exact absurd rfl hxs
  | cons y xs =>
    have hne : y ≠ x := by
      intro heq
      exact (List.nodup_append.mp hnodup).2.2 y List.mem_cons_self x List.mem_cons_self heq
    rw [h.1]
    exact_mod_cast hne

/-- A way that does not come to a place does not start there. -/
theorem Way.start_ne_of_notMem (h : Way next a xs t) (hx : x ∉ xs) (ht : t < 0) : a ≠ x := by
  cases xs with
  | nil =>
    have ha : a = t := h
    omega
  | cons y xs =>
    rw [List.mem_cons, not_or] at hx
    rw [h.1]
    exact_mod_cast Ne.symm hx.1

theorem way_concat : Way next a (xs ++ [x]) t ↔ Way next a xs x ∧ next x = t := by
  simp only [way_append, Way]
  constructor
  · intro h
    obtain ⟨b, hway, rfl, hx⟩ := h
    exact ⟨hway, hx⟩
  · intro h
    exact ⟨x, h.1, rfl, h.2⟩

theorem Way.congr (h : Way next a xs t) (hsame : ∀ x ∈ xs, next' x = next x) :
    Way next' a xs t := by
  induction xs generalizing a with
  | nil => exact h
  | cons x xs ih =>
    refine ⟨h.1, ?_⟩
    rw [hsame x List.mem_cons_self]
    exact ih h.2 (fun y hy ↦ hsame y (List.mem_cons_of_mem x hy))

theorem Way.unique (h : Way next a xs t) (h' : Way next a ys t') (ht : t < 0) (ht' : t' < 0) :
    xs = ys := by
  induction xs generalizing a ys with
  | nil =>
    cases ys with
    | nil => rfl
    | cons y ys =>
      have ha : a = t := h
      have hy : a = y := h'.1
      omega
  | cons x xs ih =>
    have hx : a = x := h.1
    cases ys with
    | nil =>
      have ha : a = t' := h'
      omega
    | cons y ys =>
      have hy : a = y := h'.1
      obtain rfl : x = y := by omega
      rw [ih h.2 h'.2]

/-- What is visited before the end is visited once. -/
theorem Way.nodup (h : Way next a xs t) (ht : t < 0) : xs.Nodup := by
  induction xs generalizing a with
  | nil => exact List.nodup_nil
  | cons x xs ih =>
    refine List.nodup_cons.mpr ⟨fun hx ↦ ?_, ih h.2⟩
    obtain ⟨ys, zs, rfl⟩ := List.append_of_mem hx
    obtain ⟨b, -, hb, hrest⟩ := way_append.mp h.2
    have hlong : Way next (x : ℤ) (x :: (ys ++ x :: zs)) t := ⟨rfl, h.2⟩
    have hshort : Way next (x : ℤ) (x :: zs) t := ⟨rfl, hrest⟩
    have hsame := hlong.unique hshort ht ht
    have hlength := congrArg List.length hsame
    simp at hlength
    omega

theorem Lists.nodup {L : SuccessorList} (h : L.Lists xs) : xs.Nodup := by
  obtain ⟨t, ht, hway⟩ := h
  exact hway.nodup ht

/-- A way whose last place, if any, is linked to another place. -/
theorem Way.redirect (h : Way next a xs t) (hnodup : xs.Nodup)
    (hnext : ∀ x ∈ xs, next' x = if xs.getLast? = some x then t' else next x) :
    Way next' (if xs = [] then t' else a) xs t' := by
  rcases List.eq_nil_or_concat xs with rfl | ⟨ys, x, rfl⟩
  · rfl
  · rw [List.concat_eq_append] at *
    have hlast : (ys ++ [x]).getLast? = some x := List.getLast?_concat
    rw [if_neg (by simp)]
    refine way_concat.mpr ⟨(way_concat.mp h).1.congr (fun y hy ↦ ?_), ?_⟩
    · have hne : x ≠ y := by
        intro heq
        exact (List.nodup_append.mp hnodup).2.2 y hy x List.mem_cons_self heq.symm
      rw [hnext y (List.mem_append_left _ hy), hlast, if_neg (by simpa using hne)]
    · rw [hnext x (List.mem_append_right _ List.mem_cons_self), hlast, if_pos rfl]

section Exchange

variable {i j : ℕ} {front between back : List ℕ}

/-- Two places change their positions when the links to them and from them do. -/
theorem Way.exchange (h : Way next a (front ++ i :: (between ++ j :: back)) t)
    (hnodup : (front ++ i :: (between ++ j :: back)).Nodup) {a' : ℤ}
    (hstart : a' = if front = [] then (j : ℤ) else a)
    (hfront : ∀ x ∈ front, next' x = if front.getLast? = some x then (j : ℤ) else next x)
    (hbetween : ∀ x ∈ between, next' x = if between.getLast? = some x then (i : ℤ) else next x)
    (hback : ∀ x ∈ back, next' x = next x) (hi : next' i = next j)
    (hj : next' j = if between = [] then (i : ℤ) else next i) :
    Way next' a' (front ++ j :: (between ++ i :: back)) t := by
  obtain ⟨b, hfrontWay, rfl, hrest⟩ := way_append.mp h
  obtain ⟨c, hbetweenWay, rfl, hbackWay⟩ := way_append.mp hrest
  have hsplit := List.nodup_append.mp hnodup
  have hsplit' := List.nodup_append.mp (List.nodup_cons.mp hsplit.2.1).2
  rw [hstart]
  refine way_append.mpr ⟨j, hfrontWay.redirect hsplit.1 hfront, rfl, ?_⟩
  rw [hj]
  refine way_append.mpr ⟨i, hbetweenWay.redirect hsplit'.1 hbetween, rfl, ?_⟩
  rw [hi]
  exact hbackWay.congr hback

end Exchange

/-- The loop that links the places of a list and closes it. -/
def linkAll (next : ℕ → ℤ) : List ℕ → ℕ → ℤ
  | [] => next
  | [x] => Function.update next x (-1)
  | x :: y :: ys => linkAll (Function.update next x y) (y :: ys)

theorem linkAll_of_notMem (hx : x ∉ xs) : linkAll next xs x = next x := by
  induction xs generalizing next with
  | nil => rfl
  | cons y ys ih =>
    rw [List.mem_cons, not_or] at hx
    cases ys with
    | nil => exact Function.update_of_ne hx.1 _ _
    | cons z zs => rw [linkAll, ih hx.2, Function.update_of_ne hx.1]

theorem linkAll_way (hnodup : (x :: xs).Nodup) : Way (linkAll next (x :: xs)) x (x :: xs) (-1) := by
  induction xs generalizing next x with
  | nil => exact ⟨rfl, Function.update_self _ _ _⟩
  | cons y ys ih =>
    obtain ⟨hx, hys⟩ := List.nodup_cons.mp hnodup
    refine ⟨rfl, ?_⟩
    rw [linkAll, linkAll_of_notMem hx, Function.update_self]
    exact ih hys

/-- The list with the places `xs`, whatever the links were before. -/
def relink (next : ℕ → ℤ) (xs : List ℕ) : SuccessorList where
  head := (xs.head?.map Nat.cast).getD (-1)
  next := linkAll next xs

theorem relink_lists (hnodup : xs.Nodup) : (relink next xs).Lists xs := by
  refine ⟨-1, by omega, ?_⟩
  cases xs with
  | nil => rfl
  | cons x xs => exact linkAll_way hnodup

end SuccessorList

end EdgeSlice
