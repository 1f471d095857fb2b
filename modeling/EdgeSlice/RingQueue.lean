import Mathlib.Algebra.BigOperators.Group.Finset.Piecewise
import Mathlib.Logic.Function.Basic

/-! A queue in a table of slots that are used in turn, and sums over the slots of a table. -/

namespace EdgeSlice.RingQueue

open Function

variable {α β : Type*} {m first next gap k x i : ℕ} {slot slot' : ℕ → Option β} {waiting : List β} {b : β}

section Sums

/-- One slot of a table is written. -/
theorem sum_update (hi : i < m) (table : ℕ → α) (size : α → ℕ) (a : α) :
    ∑ j ∈ Finset.range m, size (update table i a j) + size (table i) =
      ∑ j ∈ Finset.range m, size (table j) + size a := by
  have hmem : i ∈ Finset.range m := Finset.mem_range.mpr hi
  have hsize (j : ℕ) : size (update table i a j) = update (fun j ↦ size (table j)) i (size a) j := by
    rcases eq_or_ne j i with rfl | hne
    · rw [update_self, update_self]
    · rw [update_of_ne hne, update_of_ne hne]
  rw [Finset.sum_congr rfl fun j _ ↦ hsize j, Finset.sum_update_of_mem hmem,
    ← Finset.sum_sdiff (Finset.singleton_subset_iff.mpr hmem), Finset.sum_singleton]
  omega

/-- How many slots have a property, when one slot is written. -/
theorem card_update (hi : i < m) (table : ℕ → α) (p : α → Prop) [DecidablePred p] (a : α) :
    ((Finset.range m).filter fun j ↦ p (update table i a j)).card + (if p (table i) then 1 else 0) =
      ((Finset.range m).filter fun j ↦ p (table j)).card + (if p a then 1 else 0) := by
  rw [Finset.card_filter, Finset.card_filter]
  exact sum_update hi table (fun a ↦ if p a then 1 else 0) a

end Sums

theorem mod_eq_ite (h : x < 2 * m) : x % m = if x < m then x else x - m := by
  split_ifs with hlt
  · exact Nat.mod_eq_of_lt hlt
  · rw [Nat.mod_eq_sub_mod (Nat.not_lt.mp hlt), Nat.mod_eq_of_lt (by omega)]

/-- Behind a gap of empty slots the waiting elements lie in the slots between `first` and `next`. -/
structure Holds (m : ℕ) (slot : ℕ → Option β) (first next gap : ℕ) (waiting : List β) : Prop where
  first_lt : first < m
  next_lt : next < m
  length_eq : gap + waiting.length = (next + m - first) % m
  slot_eq : ∀ k < m, slot ((first + k) % m) = if k < gap then none else waiting[k - gap]?

namespace Holds

theorem congr (h : Holds m slot first next gap waiting) (heq : ∀ i < m, slot' i = slot i) :
    Holds m slot' first next gap waiting where
  first_lt := h.first_lt
  next_lt := h.next_lt
  length_eq := h.length_eq
  slot_eq k hk := (heq _ (Nat.mod_lt _ (by omega))).trans (h.slot_eq k hk)

theorem empty (hm : 0 < m) : Holds m (fun _ ↦ (none : Option β)) 0 0 0 [] where
  first_lt := hm
  next_lt := hm
  length_eq := by
    rw [Nat.sub_zero, Nat.zero_add, Nat.zero_add, Nat.mod_self]
    rfl
  slot_eq _ _ := rfl

/-- The first slot of the ring. -/
theorem slot_first (h : Holds m slot first next gap waiting) :
    slot first = if 0 < gap then none else waiting[0 - gap]? := by
  have hfirst := h.slot_eq 0 (Nat.zero_lt_of_lt h.first_lt)
  rwa [Nat.add_zero, Nat.mod_eq_of_lt h.first_lt] at hfirst

theorem head (h : Holds m slot first next gap waiting) (hslot : slot first = some b) :
    gap = 0 ∧ ∃ rest, waiting = b :: rest := by
  rw [h.slot_first] at hslot
  split_ifs at hslot with hgap
  obtain rfl : gap = 0 := by omega
  cases waiting with
  | nil => cases hslot
  | cons a rest =>
    cases hslot
    exact ⟨rfl, rest, rfl⟩

/-- An element is put behind the others. -/
theorem push (h : Holds m slot first next gap waiting) (hfull : (next + 1) % m ≠ first) (b : β) :
    Holds m (update slot next (some b)) first ((next + 1) % m) gap (waiting ++ [b]) := by
  have hfirst := h.first_lt
  have hnext := h.next_lt
  have hlength := h.length_eq
  have hbehind : (next + 1) % m = if next + 1 < m then next + 1 else next + 1 - m := mod_eq_ite (by omega)
  have hspan : (next + m - first) % m = if next + m - first < m then next + m - first else next + m - first - m :=
    mod_eq_ite (by omega)
  have hlt : (next + 1) % m < m := Nat.mod_lt _ (by omega)
  refine ⟨hfirst, hlt, ?_, fun k hk ↦ ?_⟩
  · have hspan' := mod_eq_ite (m := m) (x := (next + 1) % m + m - first) (by omega)
    rw [hspan', List.length_append, List.length_singleton]
    split_ifs at hbehind hspan ⊢ <;> omega
  · have hindex : (first + k) % m = if first + k < m then first + k else first + k - m := mod_eq_ite (by omega)
    rcases eq_or_ne ((first + k) % m) next with heq | hne
    · have hlast : k = gap + waiting.length := by
        split_ifs at hindex hspan <;> omega
      rw [heq, update_self, if_neg (by omega), hlast, Nat.add_sub_cancel_left]
      exact List.getElem?_concat_length.symm
    · have hother : k ≠ gap + waiting.length := by
        intro heq
        apply hne
        split_ifs at hindex hspan <;> omega
      rw [update_of_ne hne, h.slot_eq k hk]
      split_ifs with hgap
      · rfl
      · rcases Nat.lt_or_ge (k - gap) waiting.length with hin | hout
        · rw [List.getElem?_append_left hin]
        · rw [List.getElem?_eq_none hout, List.getElem?_eq_none]
          rw [List.length_append, List.length_singleton]
          omega

/-- The slots from the one behind the first on. -/
theorem slot_behind (h : Holds m slot first next gap waiting) (hk : k + 1 < m) :
    slot (((first + 1) % m + k) % m) = if k + 1 < gap then none else waiting[k + 1 - gap]? := by
  rw [← h.slot_eq (k + 1) hk, Nat.mod_add_mod, Nat.add_assoc, Nat.add_comm 1 k]

theorem last_behind (h : Holds m slot first next gap waiting) : ((first + 1) % m + (m - 1)) % m = first := by
  have hfirst := h.first_lt
  rw [Nat.mod_add_mod, show first + 1 + (m - 1) = first + m by omega, Nat.add_mod_right,
    Nat.mod_eq_of_lt hfirst]

/-- The first element is taken out. -/
theorem pop (h : Holds m slot first next 0 (b :: waiting)) :
    Holds m (update slot first none) ((first + 1) % m) next 0 waiting := by
  have hfirst := h.first_lt
  have hnext := h.next_lt
  have hlength := h.length_eq
  have hspan : (next + m - first) % m = if next + m - first < m then next + m - first else next + m - first - m :=
    mod_eq_ite (by omega)
  have hbehind : (first + 1) % m = if first + 1 < m then first + 1 else first + 1 - m := mod_eq_ite (by omega)
  have hlt : (first + 1) % m < m := Nat.mod_lt _ (by omega)
  rw [List.length_cons] at hlength
  refine ⟨hlt, hnext, ?_, fun k hk ↦ ?_⟩
  · have hspan' := mod_eq_ite (m := m) (x := next + m - (first + 1) % m) (by omega)
    rw [hspan']
    split_ifs at hbehind hspan ⊢ <;> omega
  · rw [if_neg (Nat.not_lt_zero k)]
    rcases Nat.lt_or_ge (k + 1) m with hlt | hge
    · have hne : ((first + 1) % m + k) % m ≠ first := by
        have hindex := mod_eq_ite (m := m) (x := (first + 1) % m + k) (by omega)
        rw [hindex]
        split_ifs at hbehind ⊢ <;> omega
      rw [update_of_ne hne, h.slot_behind hlt, if_neg (Nat.not_lt_zero _)]
      rfl
    · obtain rfl : k = m - 1 := by omega
      have hshort : waiting.length ≤ m - 1 - 0 := by
        split_ifs at hspan <;> omega
      rw [h.last_behind, update_self, List.getElem?_eq_none hshort]

/-- An empty slot is passed over. -/
theorem skip (h : Holds m slot first next gap waiting) (hslot : slot first = none) :
    ∃ gap', Holds m slot ((first + 1) % m) next gap' waiting := by
  have hfirst := h.first_lt
  have hnext := h.next_lt
  have hlength := h.length_eq
  have hspan : (next + m - first) % m = if next + m - first < m then next + m - first else next + m - first - m :=
    mod_eq_ite (by omega)
  have hbehind : (first + 1) % m = if first + 1 < m then first + 1 else first + 1 - m := mod_eq_ite (by omega)
  have hlt : (first + 1) % m < m := Nat.mod_lt _ (by omega)
  have hspan' := mod_eq_ite (m := m) (x := next + m - (first + 1) % m) (by omega)
  have hempty := h.slot_first.symm.trans hslot
  cases gap with
  | succ gap =>
    refine ⟨gap, hlt, hnext, ?_, fun k hk ↦ ?_⟩
    · rw [hspan']
      split_ifs at hbehind hspan ⊢ <;> omega
    · rcases Nat.lt_or_ge (k + 1) m with hlt | hge
      · rw [h.slot_behind hlt, Nat.add_sub_add_right]
        exact if_congr (Nat.add_lt_add_iff_right) rfl rfl
      · obtain rfl : k = m - 1 := by omega
        rw [h.last_behind, hslot]
        split_ifs with hgap
        · rfl
        · rw [List.getElem?_eq_none]
          split_ifs at hspan <;> omega
  | zero =>
    -- Nothing waits, and the gap is the whole ring but one slot.
    rw [if_neg (Nat.lt_irrefl 0), List.getElem?_eq_none_iff] at hempty
    obtain rfl : waiting = [] := List.length_eq_zero_iff.mp (by omega)
    rw [List.length_nil] at hlength
    refine ⟨m - 1, hlt, hnext, ?_, fun k hk ↦ ?_⟩
    · rw [hspan', List.length_nil]
      split_ifs at hbehind hspan ⊢ <;> omega
    · have hnone : (if k < m - 1 then none else ([] : List β)[k - (m - 1)]?) = none := by
        split_ifs <;> rfl
      rw [hnone]
      rcases Nat.lt_or_ge (k + 1) m with hlt | hge
      · rw [h.slot_behind hlt, if_neg (Nat.not_lt_zero _)]
        rfl
      · obtain rfl : k = m - 1 := by omega
        rw [h.last_behind, hslot]

end Holds

section Walk

theorem takeWhile_until {p p' : ℕ → Bool} {xs : List ℕ} (hsame : ∀ x ∈ xs, p' x = p x) (hend : p' i = false) :
    (xs ++ [i]).takeWhile p' = xs.takeWhile p := by
  induction xs with
  | nil => simp [hend]
  | cons x xs ih =>
    obtain ⟨hx, hxs⟩ := List.forall_mem_cons.mp hsame
    simp only [List.cons_append, List.takeWhile_cons, hx, ih hxs]

/-- A walk around the ring as far as the slots are filled passes the elements that wait. -/
theorem Holds.takeWhile_eq (h : Holds m slot first next 0 waiting) :
    ((List.range m).map fun k ↦ (first + k) % m).takeWhile (fun i ↦ (slot i).isSome) =
      (List.range waiting.length).map fun k ↦ (first + k) % m := by
  have hlength := h.length_eq
  rw [Nat.zero_add] at hlength
  have hlt : waiting.length < m := hlength ▸ Nat.mod_lt _ (Nat.zero_lt_of_lt h.first_lt)
  have hslot (k : ℕ) (hk : k < m) : slot ((first + k) % m) = waiting[k]? := h.slot_eq k hk
  obtain ⟨n, hn⟩ : ∃ n, m = waiting.length + (n + 1) := ⟨m - waiting.length - 1, by omega⟩
  have hrange : List.range m = List.range waiting.length ++ (List.range (n + 1)).map (waiting.length + ·) := by
    rw [hn]
    exact List.range_add
  rw [hrange, List.map_append, List.takeWhile_append_of_pos, List.range_succ_eq_map, List.map_cons, List.map_cons,
    List.takeWhile_cons_of_neg, List.append_nil]
  · rw [hslot _ (by omega), Nat.add_zero, List.getElem?_eq_none le_rfl]
    exact Bool.false_ne_true
  · intro i hi
    obtain ⟨k, hk, rfl⟩ := List.mem_map.mp hi
    have hk := List.mem_range.mp hk
    rw [hslot k (by omega), List.getElem?_eq_getElem hk]
    rfl

/-- A walk around the ring as far as the slots are filled, and the rest of it once the first slot is empty. -/
theorem takeWhile_ring {p p' : ℕ → Bool} (hfirst : first < m) (hp : p first = true) (hp' : p' first = false)
    (hsame : ∀ i, i ≠ first → p' i = p i) :
    ((List.range m).map fun k ↦ (first + k) % m).takeWhile p =
      first :: ((List.range m).map fun k ↦ ((first + 1) % m + k) % m).takeWhile p' := by
  obtain ⟨n, rfl⟩ : ∃ n, m = n + 1 := ⟨m - 1, by omega⟩
  have hlast : ((first + 1) % (n + 1) + n) % (n + 1) = first := by
    rw [Nat.mod_add_mod, Nat.add_right_comm, Nat.add_assoc, Nat.add_mod_right, Nat.mod_eq_of_lt hfirst]
  have htail : ((List.range n).map Nat.succ).map (fun k ↦ (first + k) % (n + 1)) =
      (List.range n).map fun k ↦ ((first + 1) % (n + 1) + k) % (n + 1) := by
    rw [List.map_map]
    refine List.map_congr_left fun k _ ↦ ?_
    rw [Nat.mod_add_mod, Function.comp_apply, Nat.add_assoc, Nat.add_comm 1 k]
  have hother : ∀ x ∈ (List.range n).map fun k ↦ ((first + 1) % (n + 1) + k) % (n + 1), p' x = p x := by
    intro x hx
    obtain ⟨k, hk, rfl⟩ := List.mem_map.mp hx
    have hk := List.mem_range.mp hk
    refine hsame _ fun heq ↦ ?_
    rw [Nat.mod_add_mod] at heq
    have hindex := mod_eq_ite (m := n + 1) (x := first + 1 + k) (by omega)
    split_ifs at hindex <;> omega
  rw [List.range_succ_eq_map, List.map_cons, Nat.add_zero, Nat.mod_eq_of_lt hfirst, List.takeWhile_cons_of_pos hp,
    htail, ← List.range_succ_eq_map, List.range_succ, List.map_append, List.map_singleton, hlast,
    takeWhile_until hother hp']

end Walk

end EdgeSlice.RingQueue
