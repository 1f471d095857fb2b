import Mathlib.Data.List.Infix
import Mathlib.Data.List.Nodup
import Mathlib.Data.List.TakeWhile
import Mathlib.Logic.Function.Basic

/-! Queues of places with links in both directions. -/

namespace EdgeSlice

structure Links (ι : Type*) where
  head : Option ι
  prev : ι → Option ι
  next : ι → Option ι

namespace Links

variable {ι : Type*} {L L' : Links ι} {a b : ι} {p n : Option ι} {xs ys l : List ι}

/-- A new place between two neighbours, with the links in the order in which they are set. -/
def insert [DecidableEq ι] (L : Links ι) (a : ι) (before after : Option ι) : Links ι :=
  let L :=
    { L with prev := Function.update L.prev a before, next := Function.update L.next a after }
  let L :=
    match after with
    | none => L
    | some b => { L with prev := Function.update L.prev b (some a) }
  match before with
  | none => { L with head := some a }
  | some b => { L with next := Function.update L.next b (some a) }

/-- The links around a place; its own are left as they are. -/
def remove [DecidableEq ι] (L : Links ι) (a : ι) : Links ι :=
  let L :=
    match L.next a with
    | none => L
    | some b => { L with prev := Function.update L.prev b (L.prev a) }
  match L.prev a with
  | none => { L with head := L.next a }
  | some b => { L with next := Function.update L.next b (L.next a) }

/-- The places from one on, at most `fuel` of them. -/
def walk (L : Links ι) : ℕ → Option ι → List ι
  | 0, _ => []
  | _ + 1, none => []
  | fuel + 1, some a => a :: walk L fuel (L.next a)

/-- The neighbours of the first place that `stop` holds of; `none` when a place has no answer. -/
def search (L : Links ι) (stop : ι → Option Bool) : ℕ → Option ι → Option ι →
    Option (Option ι × Option ι)
  | _, before, none => some (before, none)
  | 0, _, some _ => none
  | fuel + 1, before, some a =>
    (stop a).bind fun found ↦
      if found then some (before, some a) else search L stop fuel (some a) (L.next a)

/-- The links from a place to the next one, between `p` and `n`. -/
def Stretch (L : Links ι) : Option ι → List ι → Option ι → Prop
  | _, [], _ => True
  | p, a :: as, n => L.prev a = p ∧ L.next a = as.head?.or n ∧ Stretch L (some a) as n

structure Queue (L : Links ι) (l : List ι) : Prop where
  head : L.head = l.head?
  stretch : L.Stretch none l none
  nodup : l.Nodup

theorem Stretch.congr (h : L.Stretch p l n) (hprev : ∀ a ∈ l, L'.prev a = L.prev a)
    (hnext : ∀ a ∈ l, L'.next a = L.next a) : L'.Stretch p l n := by
  induction l generalizing p with
  | nil => trivial
  | cons a l ih =>
    obtain ⟨ha, ha', hl⟩ := h
    refine ⟨(hprev a List.mem_cons_self).trans ha, (hnext a List.mem_cons_self).trans ha', ?_⟩
    exact ih hl (fun b hb ↦ hprev b (List.mem_cons_of_mem a hb))
      fun b hb ↦ hnext b (List.mem_cons_of_mem a hb)

theorem stretch_append :
    L.Stretch p (xs ++ ys) n ↔
      L.Stretch p xs (ys.head?.or n) ∧ L.Stretch (xs.getLast?.or p) ys n := by
  induction xs generalizing p with
  | nil => simp [Stretch]
  | cons a xs ih =>
    have hhead : (xs ++ ys).head?.or n = xs.head?.or (ys.head?.or n) := by
      rw [List.head?_append, Option.or_assoc]
    have hlast : (a :: xs).getLast?.or p = xs.getLast?.or (some a) := by
      rw [List.getLast?_cons]
      cases xs.getLast? <;> rfl
    rw [List.cons_append, Stretch, Stretch, ih, hhead, hlast, and_assoc, and_assoc]

/-- The last link of a stretch, and all the others. -/
theorem stretch_concat :
    L.Stretch p (xs ++ [a]) n ↔
      L.Stretch p xs (some a) ∧ L.prev a = xs.getLast?.or p ∧ L.next a = n := by
  rw [stretch_append]
  simp [Stretch]

theorem Stretch.walk_eq {fuel : ℕ} (h : L.Stretch p l none) (hfuel : l.length ≤ fuel) :
    L.walk fuel l.head? = l := by
  induction l generalizing p fuel with
  | nil => cases fuel <;> rfl
  | cons a l ih =>
    obtain ⟨fuel, rfl⟩ := Nat.exists_eq_add_one_of_ne_zero (Nat.ne_zero_of_lt hfuel)
    obtain ⟨-, hnext, hl⟩ := h
    rw [Option.or_none] at hnext
    rw [List.head?_cons, walk, hnext, ih hl (Nat.le_of_succ_le_succ hfuel)]

theorem Queue.walk_eq {fuel : ℕ} (h : L.Queue l) (hfuel : l.length ≤ fuel) :
    L.walk fuel L.head = l := by
  rw [h.head, h.stretch.walk_eq hfuel]

/-- A search stops between the places that come before and the first that does not. -/
theorem Stretch.search_eq {stop : ι → Option Bool} {f : ι → Bool} {fuel : ℕ}
    (h : L.Stretch p l none) (hfuel : l.length ≤ fuel) (hstop : ∀ a ∈ l, stop a = some (f a)) :
    L.search stop fuel p l.head? =
      some ((l.takeWhile (!f ·)).getLast?.or p, (l.dropWhile (!f ·)).head?) := by
  induction l generalizing p fuel with
  | nil => cases fuel <;> rfl
  | cons a l ih =>
    obtain ⟨fuel, rfl⟩ := Nat.exists_eq_add_one_of_ne_zero (Nat.ne_zero_of_lt hfuel)
    obtain ⟨-, hnext, hl⟩ := h
    rw [Option.or_none] at hnext
    rw [List.head?_cons, search, hstop a List.mem_cons_self, Option.bind_some, hnext]
    cases hf : f a with
    | true => simp [hf]
    | false =>
      have hrest := ih hl (Nat.le_of_succ_le_succ hfuel)
        fun b hb ↦ hstop b (List.mem_cons_of_mem a hb)
      simp only [Bool.false_eq_true, if_false, hrest, hf, List.takeWhile_cons, List.dropWhile_cons,
        Bool.not_false, if_true, List.getLast?_cons]
      cases (l.takeWhile (!f ·)).getLast? <;> rfl

/-- The end of a stretch that is linked to another place. -/
theorem Stretch.set_last (h : L.Stretch p xs n) {n' : Option ι} (hnodup : xs.Nodup)
    (hprev : ∀ x ∈ xs, L'.prev x = L.prev x)
    (hnext : ∀ x ∈ xs, xs.getLast? ≠ some x → L'.next x = L.next x)
    (hlast : ∀ x, xs.getLast? = some x → L'.next x = n') : L'.Stretch p xs n' := by
  rcases List.eq_nil_or_concat xs with rfl | ⟨ws, c, rfl⟩
  · trivial
  · rw [List.concat_eq_append] at *
    obtain ⟨hws, hc, -⟩ := stretch_concat.mp h
    have hlast? : (ws ++ [c]).getLast? = some c := List.getLast?_concat
    refine stretch_concat.mpr ⟨hws.congr (fun x hx ↦ hprev x (List.mem_append_left _ hx))
      fun x hx ↦ hnext x (List.mem_append_left _ hx) ?_, ?_, hlast c hlast?⟩
    · rw [hlast?]
      intro heq
      cases heq
      exact (List.nodup_append.mp hnodup).2.2 c hx c List.mem_cons_self rfl
    · rw [hprev c (List.mem_append_right _ List.mem_cons_self), hc]

/-- The start of a stretch that is linked to another place. -/
theorem Stretch.set_first (h : L.Stretch p ys n) {p' : Option ι} (hnodup : ys.Nodup)
    (hnext : ∀ y ∈ ys, L'.next y = L.next y)
    (hprev : ∀ y ∈ ys, ys.head? ≠ some y → L'.prev y = L.prev y)
    (hfirst : ∀ y, ys.head? = some y → L'.prev y = p') : L'.Stretch p' ys n := by
  cases ys with
  | nil => trivial
  | cons b ys =>
    obtain ⟨-, hb, hys⟩ := h
    refine ⟨hfirst b rfl, (hnext b List.mem_cons_self).trans hb, hys.congr (fun y hy ↦ ?_)
      fun y hy ↦ hnext y (List.mem_cons_of_mem b hy)⟩
    apply hprev y (List.mem_cons_of_mem b hy)
    intro heq
    cases heq
    exact (List.nodup_cons.mp hnodup).1 hy

section Update

variable [DecidableEq ι]

theorem insert_prev {x : ι} : (L.insert a p n).prev x =
    if n = some x then some a else if x = a then p else L.prev x := by
  cases p <;> cases n <;> simp [Links.insert, Function.update_apply, eq_comm]

theorem insert_next {x : ι} : (L.insert a p n).next x =
    if p = some x then some a else if x = a then n else L.next x := by
  cases p <;> cases n <;> simp [Links.insert, Function.update_apply, eq_comm]

theorem insert_head : (L.insert a p n).head = if p = none then some a else L.head := by
  cases p <;> cases n <;> rfl

theorem remove_prev {x : ι} : (L.remove a).prev x =
    if L.next a = some x then L.prev a else L.prev x := by
  cases hp : L.prev a <;> cases hn : L.next a <;>
    simp [Links.remove, hp, hn, Function.update_apply, eq_comm]

theorem remove_next {x : ι} : (L.remove a).next x =
    if L.prev a = some x then L.next a else L.next x := by
  cases hp : L.prev a <;> cases hn : L.next a <;>
    simp [Links.remove, hp, hn, Function.update_apply, eq_comm]

theorem remove_head : (L.remove a).head = if L.prev a = none then L.next a else L.head := by
  cases hp : L.prev a <;> cases hn : L.next a <;> simp [Links.remove, hp, hn, Function.update_apply]

theorem Queue.insert (h : L.Queue (xs ++ ys)) (ha : a ∉ xs ++ ys) :
    (L.insert a xs.getLast? ys.head?).Queue (xs ++ a :: ys) := by
  obtain ⟨hhead, hstretch, hnodup⟩ := h
  obtain ⟨hxs, hys, hdisjoint⟩ := List.nodup_append.mp hnodup
  obtain ⟨hstretch, hstretch'⟩ := stretch_append.mp hstretch
  have hmem : ∀ x ∈ xs, x ≠ a ∧ ys.head? ≠ some x := fun x hx ↦
    ⟨fun heq ↦ ha (heq ▸ List.mem_append_left _ hx),
      fun heq ↦ hdisjoint x hx x (List.mem_of_head? heq) rfl⟩
  have hmem' : ∀ y ∈ ys, y ≠ a ∧ xs.getLast? ≠ some y := fun y hy ↦
    ⟨fun heq ↦ ha (heq ▸ List.mem_append_right _ hy),
      fun heq ↦ hdisjoint y (List.mem_of_getLast? heq) y hy rfl⟩
  have hself : xs.getLast? ≠ some a ∧ ys.head? ≠ some a :=
    ⟨fun heq ↦ ha (List.mem_append_left _ (List.mem_of_getLast? heq)),
      fun heq ↦ ha (List.mem_append_right _ (List.mem_of_head? heq))⟩
  refine ⟨?_, stretch_append.mpr ⟨?_, ?_, ?_, ?_⟩, ?_⟩
  · rw [insert_head, hhead]
    cases xs with
    | nil => rfl
    | cons x xs => simp
  · apply hstretch.set_last hxs
    · intro x hx
      rw [insert_prev, if_neg (hmem x hx).2, if_neg (hmem x hx).1]
    · intro x hx hlast
      rw [insert_next, if_neg hlast, if_neg (hmem x hx).1]
    · intro x hlast
      rw [insert_next, if_pos hlast]
      rfl
  · rw [insert_prev, if_neg hself.2, if_pos rfl, Option.or_none]
  · rw [insert_next, if_neg hself.1, if_pos rfl, Option.or_none]
  · apply hstretch'.set_first hys
    · intro y hy
      rw [insert_next, if_neg (hmem' y hy).2, if_neg (hmem' y hy).1]
    · intro y hy hfirst
      rw [insert_prev, if_neg hfirst, if_neg (hmem' y hy).1]
    · intro y hfirst
      rw [insert_prev, if_pos hfirst]
  · rw [List.nodup_middle, List.nodup_cons]
    exact ⟨ha, hnodup⟩

theorem Queue.remove (h : L.Queue (xs ++ a :: ys)) : (L.remove a).Queue (xs ++ ys) := by
  obtain ⟨hhead, hstretch, hnodup⟩ := h
  obtain ⟨hstretch, hprev, hnext, hstretch'⟩ := stretch_append.mp hstretch
  rw [Option.or_none] at hprev hnext
  obtain ⟨hne, hnodup'⟩ := List.nodup_cons.mp (List.nodup_middle.mp hnodup)
  obtain ⟨hxs, hys, hdisjoint⟩ := List.nodup_append.mp hnodup'
  have hmem : ∀ x ∈ xs, ys.head? ≠ some x := fun x hx heq ↦
    hdisjoint x hx x (List.mem_of_head? heq) rfl
  have hmem' : ∀ y ∈ ys, xs.getLast? ≠ some y := fun y hy heq ↦
    hdisjoint y (List.mem_of_getLast? heq) y hy rfl
  refine ⟨?_, stretch_append.mpr ⟨?_, ?_⟩, hnodup'⟩
  · rw [remove_head, hprev, hnext, hhead]
    cases xs with
    | nil => rfl
    | cons x xs => simp
  · apply hstretch.set_last hxs
    · intro x hx
      rw [remove_prev, hnext, if_neg (hmem x hx)]
    · intro x _ hlast
      rw [remove_next, hprev, if_neg hlast]
    · intro x hlast
      rw [remove_next, hprev, if_pos hlast, hnext, Option.or_none]
  · apply hstretch'.set_first hys
    · intro y hy
      rw [remove_next, hprev, if_neg (hmem' y hy)]
    · intro y _ hfirst
      rw [remove_prev, hnext, if_neg hfirst]
    · intro y hfirst
      rw [remove_prev, hnext, if_pos hfirst, hprev, Option.or_none]

end Update

end Links

end EdgeSlice
