import Mathlib.Data.List.Basic
import Mathlib.Data.List.Nodup

namespace EdgeSlice.FirstFit

variable {κ ρ : Type*}

/-- The slots that a left-to-right scan takes. A free slot is taken as long
as the demand is not met; `want` is the demand left after one more slot. -/
def scan (want : ρ → Option ρ) (free : κ → Bool) : List κ → ρ → List κ
  | [], _ => []
  | k :: ks, r =>
    match free k, want r with
    | true, some r' => k :: scan want free ks r'
    | _, _ => scan want free ks r

/-- The number of slots a demand takes when `n` free slots are offered. -/
def served (want : ρ → Option ρ) : ℕ → ρ → ℕ
  | 0, _ => 0
  | n + 1, r =>
    match want r with
    | some r' => served want n r' + 1
    | none => 0

variable {want : ρ → Option ρ} {free : κ → Bool}

theorem scan_of_met {r : ρ} (h : want r = none) (ks : List κ) : scan want free ks r = [] := by
  induction ks with
  | nil => rfl
  | cons k ks ih => cases hk : free k <;> simp [scan, hk, h, ih]

theorem served_le (n : ℕ) (r : ρ) : served want n r ≤ n := by
  induction n generalizing r with
  | zero => exact Nat.le_refl _
  | succ n ih =>
    cases h : want r with
    | none => simp [served, h]
    | some r' => simpa [served, h] using ih r'

/-- A scan takes the first free slots, as many as the demand asks for. -/
theorem scan_eq_take (ks : List κ) (r : ρ) :
    scan want free ks r =
      (ks.filter free).take (served want (ks.filter free).length r) := by
  induction ks generalizing r with
  | nil => rfl
  | cons k ks ih =>
    cases hk : free k with
    | false => simp [scan, hk, ih]
    | true =>
      cases hr : want r with
      | none => simp [scan, hk, hr, scan_of_met hr, served]
      | some r' => simp [scan, hk, hr, ih, served]

theorem scan_length (ks : List κ) (r : ρ) :
    (scan want free ks r).length = served want (ks.filter free).length r := by
  rw [scan_eq_take, List.length_take]
  exact Nat.min_eq_left (served_le _ _)

theorem scan_sublist (ks : List κ) (r : ρ) :
    (scan want free ks r).Sublist (ks.filter free) := by
  rw [scan_eq_take]
  exact List.take_sublist _ _

theorem mem_of_scan {ks : List κ} {r : ρ} {k : κ} (h : k ∈ scan want free ks r) :
    k ∈ ks ∧ free k = true :=
  List.mem_filter.mp ((scan_sublist ks r).subset h)

theorem scan_nodup {ks : List κ} (h : ks.Nodup) (r : ρ) : (scan want free ks r).Nodup :=
  (h.filter _).sublist (scan_sublist ks r)

theorem scan_congr {free' : κ → Bool} {ks : List κ} (h : ∀ k ∈ ks, free k = free' k) (r : ρ) :
    scan want free ks r = scan want free' ks r := by
  induction ks generalizing r with
  | nil => rfl
  | cons k ks ih =>
    have htail := fun r ↦ ih (fun j hj ↦ h j (List.mem_cons_of_mem _ hj)) r
    simp only [scan, ← h k List.mem_cons_self, htail]

/-- A slot is taken exactly when it is free and the free slots before it
leave the demand unmet. -/
theorem mem_scan_split {before after : List κ} {k : κ} (r : ρ)
    (hb : k ∉ before) (ha : k ∉ after) :
    k ∈ scan want free (before ++ k :: after) r ↔
      free k = true ∧ served want ((before.filter free).length + 1) r =
        (before.filter free).length + 1 := by
  induction before generalizing r with
  | nil =>
    have hna : ∀ r', k ∉ scan want free after r' := fun r' h ↦ ha (mem_of_scan h).1
    cases hk : free k <;> cases hr : want r <;> simp [scan, served, hk, hr, hna]
  | cons j before ih =>
    have hjk : k ≠ j := fun h ↦ hb (h ▸ List.mem_cons_self)
    have hb' : k ∉ before := fun h ↦ hb (List.mem_cons_of_mem _ h)
    cases hj : free j with
    | false => simp [scan, hj, ih r hb']
    | true =>
      cases hr : want r with
      | none => simp [hj, hr, scan_of_met hr, served]
      | some r' => simp [scan, hj, hr, hjk, ih r' hb', served]

end EdgeSlice.FirstFit
