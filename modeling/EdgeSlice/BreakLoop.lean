import Mathlib.Data.List.Basic
import Mathlib.Data.Nat.Notation

/-! Loops that a turn can leave with a result, or that stop with a fault. -/

namespace EdgeSlice

/-- How one turn of a loop ends, and the loop itself. -/
inductive Turn (ρ : Type*)
  | next
  | exit (r : ρ)
  | fault
  deriving DecidableEq

namespace Turn

variable {ι ρ : Type*} {body : ι → Turn ρ} {is : List ι} {r : ρ}

def run (body : ι → Turn ρ) : List ι → Turn ρ
  | [] => .next
  | i :: is =>
    match body i with
    | .next => run body is
    | .exit r => .exit r
    | .fault => .fault

theorem run_cons_of_next {i : ι} (h : body i = .next) : run body (i :: is) = run body is := by
  rw [run, h]

theorem run_cons_of_exit {i : ι} (h : body i = .exit r) : run body (i :: is) = .exit r := by
  rw [run, h]

theorem run_cons_of_fault {i : ι} (h : body i = .fault) : run body (i :: is) = .fault := by
  rw [run, h]

theorem run_eq_next_iff : run body is = .next ↔ ∀ i ∈ is, body i = .next := by
  induction is with
  | nil => simp [run]
  | cons i is ih =>
    rw [List.forall_mem_cons]
    cases h : body i with
    | next => simp [run_cons_of_next h, ih]
    | exit r => simp [run_cons_of_exit h]
    | fault => simp [run_cons_of_fault h]

theorem run_append (front : List ι) (h : ∀ i ∈ front, body i = .next) :
    run body (front ++ is) = run body is := by
  induction front with
  | nil => rfl
  | cons i front ih =>
    obtain ⟨hi, hfront⟩ := List.forall_mem_cons.1 h
    rw [List.cons_append, run_cons_of_next hi, ih hfront]

/-- The loop ends as its first turn that does not go on. -/
theorem run_eq_iff {t : Turn ρ} (ht : t ≠ .next) : run body is = t ↔
    ∃ front i rest, is = front ++ i :: rest ∧ (∀ j ∈ front, body j = .next) ∧ body i = t := by
  constructor
  · intro hrun
    induction is with
    | nil => exact absurd hrun.symm ht
    | cons i is ih =>
      cases h : body i with
      | next =>
        rw [run_cons_of_next h] at hrun
        obtain ⟨front, j, rest, heq, hfront, hj⟩ := ih hrun
        refine ⟨i :: front, j, rest, by rw [heq, List.cons_append], ?_, hj⟩
        exact List.forall_mem_cons.2 ⟨h, hfront⟩
      | exit r =>
        rw [run_cons_of_exit h] at hrun
        exact ⟨[], i, is, rfl, List.forall_mem_nil _, h.trans hrun⟩
      | fault =>
        rw [run_cons_of_fault h] at hrun
        exact ⟨[], i, is, rfl, List.forall_mem_nil _, h.trans hrun⟩
  · intro h
    obtain ⟨front, i, rest, rfl, hfront, hi⟩ := h
    rw [run_append front hfront]
    cases t with
    | next => exact absurd rfl ht
    | exit r => exact run_cons_of_exit hi
    | fault => exact run_cons_of_fault hi

theorem run_range_eq_iff {body : ℕ → Turn ρ} {n : ℕ} {t : Turn ρ} (ht : t ≠ .next) :
    run body (List.range n) = t ↔ ∃ i < n, (∀ j < i, body j = .next) ∧ body i = t := by
  rw [run_eq_iff ht]
  constructor
  · intro h
    obtain ⟨front, i, rest, heq, hfront, hi⟩ := h
    have hlen : front.length < n := by
      have := congrArg List.length heq
      simp at this
      omega
    have hplace : i = front.length := by
      have hget : (List.range n)[front.length]? = some i := by simp [heq]
      simpa [List.getElem?_range hlen] using hget.symm
    have hbefore : front = List.range front.length := by
      have htake : (List.range n).take front.length = front := by rw [heq, List.take_left]
      rw [← htake, List.take_range, Nat.min_eq_left (Nat.le_of_lt hlen), List.length_range]
    refine ⟨i, by omega, fun j hj ↦ hfront j ?_, hi⟩
    rw [hbefore]
    exact List.mem_range.2 (by omega)
  · intro h
    obtain ⟨i, hlt, hbefore, hi⟩ := h
    obtain ⟨k, rfl⟩ := Nat.exists_eq_add_of_lt hlt
    refine ⟨List.range i, i, (List.range k).map (i + 1 + ·), ?_, fun j hj ↦ hbefore j (List.mem_range.1 hj), hi⟩
    rw [Nat.add_right_comm, List.range_add, List.range_succ]
    simp

end Turn

end EdgeSlice
