import Mathlib.Data.List.Nodup
import Mathlib.Data.List.Perm.Subperm
import Mathlib.Data.Option.Basic
import Mathlib.Logic.Function.Basic
import Mathlib.Order.Nat

namespace EdgeSlice

open Function

/-- A finite table of numbered entries. -/
structure IdTable (α : Type*) where
  get : ℕ → Option α
  bound : ℕ
  get_of_le : ∀ id, bound ≤ id → get id = none

namespace IdTable

variable {α : Type*}

def empty : IdTable α := ⟨fun _ ↦ none, 0, fun _ _ ↦ rfl⟩

def put (t : IdTable α) (id : ℕ) (a : α) : IdTable α where
  get := update t.get id (some a)
  bound := max t.bound (id + 1)
  get_of_le := by
    intro j hj
    rw [update_of_ne (by omega)]
    exact t.get_of_le j (by omega)

def erase (t : IdTable α) (id : ℕ) : IdTable α where
  get := update t.get id none
  bound := t.bound
  get_of_le := by
    intro j hj
    by_cases h : j = id
    · rw [h, update_self]
    · rw [update_of_ne h]
      exact t.get_of_le j hj

@[simp] theorem empty_get (id : ℕ) : (empty : IdTable α).get id = none := rfl

@[simp] theorem put_get_self (t : IdTable α) (id : ℕ) (a : α) : (t.put id a).get id = some a :=
  update_self _ _ _

theorem put_get_of_ne (t : IdTable α) (a : α) {id j : ℕ} (h : j ≠ id) :
    (t.put id a).get j = t.get j :=
  update_of_ne h _ _

@[simp] theorem erase_get_self (t : IdTable α) (id : ℕ) : (t.erase id).get id = none :=
  update_self _ _ _

theorem erase_get_of_ne (t : IdTable α) {id j : ℕ} (h : j ≠ id) : (t.erase id).get j = t.get j :=
  update_of_ne h _ _

theorem lt_bound {t : IdTable α} {id : ℕ} {a : α} (h : t.get id = some a) : id < t.bound := by
  by_contra hle
  rw [t.get_of_le id (by omega)] at h
  cases h

def searchFree (t : IdTable α) : ℕ → ℕ → ℕ
  | 0, id => id
  | n + 1, id => if (t.get id).isNone then id else searchFree t n (id + 1)

/-- The first free number from `start` on. -/
def firstFree (t : IdTable α) (start : ℕ) : ℕ := t.searchFree (t.bound - start) start

theorem searchFree_eq {t : IdTable α} {id : ℕ} (hfree : t.get id = none) (n : ℕ) {start : ℕ}
    (hle : start ≤ id) (htaken : ∀ j, start ≤ j → j < id → t.get j ≠ none)
    (hn : t.bound ≤ start + n) : t.searchFree n start = id := by
  induction n generalizing start with
  | zero =>
    by_contra hne
    exact htaken start le_rfl (lt_of_le_of_ne hle hne) (t.get_of_le start hn)
  | succ n ih =>
    rw [searchFree]
    by_cases h : start = id
    · rw [h, hfree, Option.isNone_none, if_pos rfl]
    · have hs : ¬ (t.get start).isNone = true := by
        rw [Option.isNone_iff_eq_none]
        exact htaken start le_rfl (by omega)
      rw [if_neg hs]
      exact ih (by omega) (fun j hj ↦ htaken j (by omega)) (by omega)

theorem firstFree_eq {t : IdTable α} {start id : ℕ} (hfree : t.get id = none) (hle : start ≤ id)
    (htaken : ∀ j, start ≤ j → j < id → t.get j ≠ none) : t.firstFree start = id :=
  searchFree_eq hfree _ hle htaken (by omega)

theorem searchFree_spec (t : IdTable α) (n start : ℕ) (hn : t.bound ≤ start + n) :
    start ≤ t.searchFree n start ∧ t.get (t.searchFree n start) = none := by
  induction n generalizing start with
  | zero => exact ⟨le_rfl, t.get_of_le start hn⟩
  | succ n ih =>
    rw [searchFree]
    by_cases h : (t.get start).isNone = true
    · rw [if_pos h]
      exact ⟨le_rfl, Option.isNone_iff_eq_none.mp h⟩
    · rw [if_neg h]
      obtain ⟨hle, hfree⟩ := ih (start + 1) (by omega)
      exact ⟨by omega, hfree⟩

theorem le_firstFree (t : IdTable α) (start : ℕ) : start ≤ t.firstFree start :=
  (t.searchFree_spec _ start (by omega)).1

theorem firstFree_get (t : IdTable α) (start : ℕ) : t.get (t.firstFree start) = none :=
  (t.searchFree_spec _ start (by omega)).2

/-- A new entry at the first free number from `start` on. -/
def add (t : IdTable α) (start : ℕ) (a : α) : IdTable α := t.put (t.firstFree start) a

theorem addAll_get (as : List α) {t : IdTable α} {start next : ℕ} (hle : start ≤ next)
    (htaken : ∀ j, start ≤ j → j < next → t.get j ≠ none)
    (hfree : ∀ j, next ≤ j → j < next + as.length → t.get j = none) (j : ℕ) :
    (as.foldl (fun t a ↦ t.add start a) t).get j =
      if next ≤ j ∧ j < next + as.length then as[j - next]? else t.get j := by
  induction as generalizing t next with
  | nil =>
    rw [if_neg (by simp only [List.length_nil]; omega)]
    rfl
  | cons a as ih =>
    rw [List.length_cons] at hfree ⊢
    have hnext : t.firstFree start = next :=
      firstFree_eq (hfree next le_rfl (by omega)) hle htaken
    rw [List.foldl_cons, add, hnext]
    have htaken' : ∀ j, start ≤ j → j < next + 1 → (t.put next a).get j ≠ none := by
      intro j hj hjn
      by_cases h : j = next
      · rw [h, put_get_self]
        exact Option.some_ne_none a
      · rw [put_get_of_ne t a h]
        exact htaken j hj (by omega)
    have hfree' : ∀ j, next + 1 ≤ j → j < next + 1 + as.length → (t.put next a).get j = none := by
      intro j hj hjn
      rw [put_get_of_ne t a (by omega)]
      exact hfree j (by omega) (by omega)
    rw [ih (by omega) htaken' hfree']
    by_cases h : j = next
    · rw [if_neg (by omega), if_pos (by omega), h, put_get_self, Nat.sub_self, List.getElem?_cons_zero]
    · by_cases hin : next + 1 ≤ j ∧ j < next + 1 + as.length
      · rw [if_pos hin, if_pos (by omega), show j - next = j - (next + 1) + 1 by omega,
          List.getElem?_cons_succ]
      · rw [if_neg hin, if_neg (by omega), put_get_of_ne t a h]

/-- The entries are those of a list, each with a number of its own. -/
def Listed (t : IdTable α) (as : List α) : Prop :=
  ∃ ids : List ℕ, ids.Nodup ∧ ids.map t.get = as.map some ∧ ∀ id a, t.get id = some a → id ∈ ids

namespace Listed

variable {t : IdTable α} {as : List α} {a : α}

theorem nil (h : ∀ id, t.get id = none) : t.Listed [] :=
  ⟨[], List.nodup_nil, rfl, fun id a ha ↦ absurd (ha.symm.trans (h id)) (Option.some_ne_none a)⟩

theorem add (h : t.Listed as) (start : ℕ) (a : α) : (t.add start a).Listed (as ++ [a]) := by
  obtain ⟨ids, hnodup, hmap, hall⟩ := h
  have hnew : t.firstFree start ∉ ids := by
    intro hmem
    have hsome : t.get (t.firstFree start) ∈ as.map some := hmap ▸ List.mem_map_of_mem hmem
    rw [firstFree_get] at hsome
    simp at hsome
  refine ⟨ids ++ [t.firstFree start], ?_, ?_, fun id b hb ↦ ?_⟩
  · exact List.nodup_append.mpr ⟨hnodup, List.nodup_singleton _, fun id hid id' hid' heq ↦
      hnew (List.mem_singleton.mp hid' ▸ heq ▸ hid)⟩
  · have hold : ids.map (t.add start a).get = ids.map t.get := by
      refine List.map_congr_left fun id hid ↦ put_get_of_ne t a ?_
      rintro rfl
      exact hnew hid
    rw [List.map_append, List.map_append, hold, hmap]
    congr 1
    exact congrArg (fun x ↦ [x]) (put_get_self t _ a)
  · by_cases hid : id = t.firstFree start
    · rw [hid]
      simp
    · have hold := (put_get_of_ne t a hid).symm.trans hb
      exact List.mem_append_left _ (hall id b hold)

/-- A loop whose steps add entries to the table. -/
theorem foldl {σ β : Type*} (table : σ → IdTable α) {step : σ → β → σ} {out : β → List α}
    {xs : List β} (hstep : ∀ x ∈ xs, ∀ c as, (table c).Listed as → (table (step c x)).Listed (as ++ out x))
    {c : σ} (h : (table c).Listed as) : (table (xs.foldl step c)).Listed (as ++ xs.flatMap out) := by
  induction xs generalizing c as with
  | nil => rwa [List.flatMap_nil, List.append_nil]
  | cons x xs ih =>
    have hrest := ih (fun y hy ↦ hstep y (List.mem_cons_of_mem x hy)) (hstep x List.mem_cons_self c as h)
    rwa [List.append_assoc, ← List.flatMap_cons] at hrest

theorem mem_iff (h : t.Listed as) : (∃ id, t.get id = some a) ↔ a ∈ as := by
  obtain ⟨ids, _, hmap, hall⟩ := h
  have hmem : a ∈ as ↔ some a ∈ ids.map t.get := by
    rw [hmap]
    simp
  rw [hmem, List.mem_map]
  constructor
  · intro hid
    obtain ⟨id, hid⟩ := hid
    exact ⟨id, hall id a hid, hid⟩
  · intro hid
    obtain ⟨id, _, hid⟩ := hid
    exact ⟨id, hid⟩

/-- Entries with different keys are entries with different numbers. -/
theorem keys_nodup_iff {κ : Type*} (h : t.Listed as) (key : α → κ) :
    (∀ id id' a a', t.get id = some a → t.get id' = some a' → key a = key a' → id = id') ↔
      (as.map key).Nodup := by
  obtain ⟨ids, hnodup, hmap, hall⟩ := h
  have hkeys : (as.map key).map some = ids.map fun id ↦ (t.get id).map key := by
    have hcomp := congrArg (List.map (Option.map key)) hmap
    simpa [List.map_map, Function.comp_def] using hcomp.symm
  rw [← List.nodup_map_iff (Option.some_injective κ), hkeys, List.nodup_map_iff_inj_on hnodup]
  constructor
  · intro hinj id hid id' hid' heq
    have hsome : t.get id ∈ as.map some := hmap ▸ List.mem_map_of_mem hid
    have hsome' : t.get id' ∈ as.map some := hmap ▸ List.mem_map_of_mem hid'
    obtain ⟨a, _, ha⟩ := List.mem_map.mp hsome
    obtain ⟨a', _, ha'⟩ := List.mem_map.mp hsome'
    rw [← ha, ← ha'] at heq
    exact hinj id id' a a' ha.symm ha'.symm (Option.some_inj.mp heq)
  · intro hinj id id' a a' ha ha' heq
    refine hinj id (hall id a ha) id' (hall id' a' ha') ?_
    rw [ha, ha', Option.map_some, Option.map_some, heq]

/-- As many numbers as there are entries of a kind. -/
theorem length_le (h : t.Listed as) (P : α → Bool) {ids : List ℕ} (hids : ids.Nodup)
    (hP : ∀ id ∈ ids, ∃ a, t.get id = some a ∧ P a) : ids.length ≤ (as.filter P).length := by
  obtain ⟨all, _, hmap, hall⟩ := h
  have hsub : ids ⊆ all.filter fun id ↦ (t.get id).any P := by
    intro id hid
    obtain ⟨a, ha, hPa⟩ := hP id hid
    refine List.mem_filter.mpr ⟨hall id a ha, ?_⟩
    rw [ha, Option.any_some, hPa]
  have hlength : (all.filter fun id ↦ (t.get id).any P).length = (as.filter P).length := by
    have hcount := congrArg (List.countP (Option.any P)) hmap
    rw [List.countP_map, List.countP_map] at hcount
    rw [← List.countP_eq_length_filter, ← List.countP_eq_length_filter]
    exact hcount
  rw [← hlength]
  exact (hids.subperm hsub).length_le

end Listed

end IdTable

end EdgeSlice
