import Mathlib.Data.List.Basic
import Mathlib.Logic.Function.Basic

namespace EdgeSlice.ByteMemory

open Function

variable {β : Type*}

def Stores (mem : ℕ → β) : ℕ → List β → Prop
  | _, [] => True
  | p, b :: bs => mem p = b ∧ Stores mem (p + 1) bs

def store (mem : ℕ → β) : ℕ → List β → ℕ → β
  | _, [] => mem
  | p, b :: bs => store (update mem p b) (p + 1) bs

def load (mem : ℕ → β) (p n : ℕ) : List β := (List.range n).map (fun i ↦ mem (p + i))

variable {mem mem' : ℕ → β} {p : ℕ} {as bs : List β}

@[simp] theorem stores_nil : Stores mem p [] := trivial

@[simp] theorem stores_cons {b : β} : Stores mem p (b :: bs) ↔ mem p = b ∧ Stores mem (p + 1) bs :=
  Iff.rfl

theorem stores_append : Stores mem p (as ++ bs) ↔ Stores mem p as ∧ Stores mem (p + as.length) bs := by
  induction as generalizing p with
  | nil => simp
  | cons a as ih => simp [ih, and_assoc, Nat.add_right_comm, Nat.add_assoc]

theorem load_of_stores (h : Stores mem p bs) : load mem p bs.length = bs := by
  induction bs generalizing p with
  | nil => rfl
  | cons b bs ih =>
    have htail := ih h.2
    simp only [load, List.length_cons, List.range_succ_eq_map, List.map_cons, List.map_map]
    refine congrArg₂ _ h.1 (Eq.trans ?_ htail)
    refine List.map_congr_left (fun i _ ↦ ?_)
    exact congrArg mem (by omega : p + (i + 1) = p + 1 + i)

@[simp] theorem load_length (mem : ℕ → β) (p n : ℕ) : (load mem p n).length = n := by
  rw [load, List.length_map, List.length_range]

theorem load_add (mem : ℕ → β) (p n k : ℕ) :
    load mem p (n + k) = load mem p n ++ load mem (p + n) k := by
  simp only [load, List.range_add, List.map_append, List.map_map]
  refine congrArg (_ ++ ·) (List.map_congr_left fun i _ ↦ ?_)
  exact congrArg mem (Nat.add_assoc _ _ _).symm

theorem Stores.congr (h : Stores mem p bs) (hsame : ∀ q, p ≤ q → q < p + bs.length → mem' q = mem q) :
    Stores mem' p bs := by
  induction bs generalizing p with
  | nil => trivial
  | cons b bs ih =>
    have hlen : (b :: bs).length = bs.length + 1 := rfl
    refine ⟨(hsame p (Nat.le_refl p) (by omega)).trans h.1, ih h.2 (fun q hq hq' ↦ ?_)⟩
    exact hsame q (by omega) (by omega)

theorem store_outside {q : ℕ} (h : q < p ∨ p + bs.length ≤ q) : store mem p bs q = mem q := by
  induction bs generalizing p mem with
  | nil => rfl
  | cons b bs ih =>
    have hlen : (b :: bs).length = bs.length + 1 := rfl
    rw [store, ih (by omega), update_of_ne (by omega)]

theorem stores_store : Stores (store mem p bs) p bs := by
  induction bs generalizing p mem with
  | nil => trivial
  | cons b bs ih =>
    refine ⟨?_, ih⟩
    rw [store, store_outside (Or.inl (Nat.lt_succ_self p)), update_self]

theorem Stores.store_after {q : ℕ} (h : Stores mem p as) (hq : p + as.length ≤ q) :
    Stores (store mem q bs) p as :=
  h.congr (fun _ _ hlt ↦ store_outside (Or.inl (by omega)))

theorem Stores.take (h : Stores mem p (as ++ bs)) : Stores mem p as := (stores_append.mp h).1

/-- Bytes have been written from `p` on. -/
structure Filled (mem : ℕ → β) (p : ℕ) (bs : List β) (mem' : ℕ → β) : Prop where
  stores : Stores mem' p bs
  before : ∀ q < p, mem' q = mem q

namespace Filled

variable {mem'' : ℕ → β} {b c : β}

theorem refl (mem : ℕ → β) (p : ℕ) : Filled mem p [] mem := ⟨stores_nil, fun _ _ ↦ Eq.refl _⟩

theorem append (h : Filled mem p as mem') (h' : Filled mem' (p + as.length) bs mem'') :
    Filled mem p (as ++ bs) mem'' := by
  constructor
  · apply stores_append.mpr
    refine ⟨h.stores.congr fun q _ hq ↦ h'.before q hq, h'.stores⟩
  · intro q hq
    exact (h'.before q (by omega)).trans (h.before q hq)

theorem stored (mem : ℕ → β) (p : ℕ) (bs : List β) : Filled mem p bs (store mem p bs) :=
  ⟨stores_store, fun _ hq ↦ store_outside (Or.inl hq)⟩

/-- What is written behind the bytes does not matter. -/
theorem store (mem : ℕ → β) (p : ℕ) (as bs : List β) : Filled mem p as (store mem p (as ++ bs)) := by
  refine ⟨stores_store.take, fun q hq ↦ ?_⟩
  exact store_outside (Or.inl hq)

/-- A byte is left as it is, to be written later. -/
theorem skip (h : Filled mem p as mem') : Filled mem p (as ++ [mem' (p + as.length)]) mem' := by
  refine ⟨stores_append.mpr ⟨h.stores, ?_⟩, h.before⟩
  exact stores_cons.mpr ⟨Eq.refl _, stores_nil⟩

theorem singleton (mem : ℕ → β) (p : ℕ) (b : β) : Filled mem p [b] (update mem p b) :=
  stored mem p [b]

/-- A byte that has been skipped is written. -/
theorem set (h : Filled mem p (as ++ b :: bs) mem') :
    Filled mem p (as ++ c :: bs) (update mem' (p + as.length) c) := by
  obtain ⟨hfront, -, hback⟩ := stores_append.mp h.stores
  constructor
  · apply stores_append.mpr
    refine ⟨hfront.congr fun q _ hq ↦ ?_, update_self _ c mem', hback.congr fun q hq _ ↦ ?_⟩
    · have hne : q ≠ p + as.length := by omega
      exact update_of_ne hne c mem'
    · have hne : q ≠ p + as.length := by omega
      exact update_of_ne hne c mem'
  · intro q hq
    have hne : q ≠ p + as.length := by omega
    exact (update_of_ne hne c mem').trans (h.before q hq)

/-- A byte before them is written last. -/
theorem prepend (h : Filled mem (p + 1) bs mem') : Filled mem p (c :: bs) (update mem' p c) := by
  constructor
  · refine ⟨update_self p c mem', h.stores.congr fun q hq _ ↦ ?_⟩
    have hne : q ≠ p := by omega
    exact update_of_ne hne c mem'
  · intro q hq
    have hne : q ≠ p := by omega
    exact (update_of_ne hne c mem').trans (h.before q (by omega))

end Filled

end EdgeSlice.ByteMemory
