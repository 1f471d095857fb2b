import Mathlib.Data.List.Infix
import Mathlib.Data.List.Nodup
import Mathlib.Data.List.Range
import Mathlib.Data.Nat.ModEq
import Mathlib.Logic.Function.Basic

/-! Several streams in one sequence, each with numbers of its own, in a channel that may lose some. -/

namespace EdgeSlice

variable {σ α : Type*} [DecidableEq σ] (stream : α → σ)

/-- The elements with their numbers, where `k` has the next number of each stream. -/
def numbered : (σ → ℕ) → List α → List (ℕ × α)
  | _, [] => []
  | k, a :: as =>
    (k (stream a), a) :: numbered (Function.update k (stream a) (k (stream a) + 1)) as

/-- What a channel does to the elements of one stream. -/
def fates (lost : α → Bool) (s : σ) (as : List α) : List Bool :=
  (as.filter fun a ↦ stream a = s).map lost

variable {stream}

theorem fates_cons_self (lost : α → Bool) (a : α) (as : List α) :
    fates stream lost (stream a) (a :: as) = lost a :: fates stream lost (stream a) as := by
  simp [fates]

theorem fates_cons_of_ne (lost : α → Bool) {a : α} {s : σ} (h : stream a ≠ s) (as : List α) :
    fates stream lost s (a :: as) = fates stream lost s as := by
  simp [fates, h]

variable (stream) in
theorem numbered_numbers (k : σ → ℕ) (s : σ) (as : List α) :
    ((numbered stream k as).filter fun x ↦ stream x.2 = s).map Prod.fst =
      List.range' (k s) (as.filter fun a ↦ stream a = s).length := by
  induction as generalizing k with
  | nil => rfl
  | cons a as ih =>
    by_cases hs : stream a = s
    · subst hs
      simp [numbered, ih, List.range'_succ]
    · have hkeep : Function.update k (stream a) (k (stream a) + 1) s = k s :=
        Function.update_of_ne (Ne.symm hs) _ _
      simp [numbered, ih, hs, hkeep]

variable (stream) in
theorem numbered_filter_length (k : σ → ℕ) (s : σ) (as : List α) :
    ((numbered stream k as).filter fun x ↦ stream x.2 = s).length =
      (as.filter fun a ↦ stream a = s).length := by
  have hnumbers := congrArg List.length (numbered_numbers stream k s as)
  rwa [List.length_map, List.length_range'] at hnumbers

/-- Numbers modulo `m` do not repeat within `m` elements of one stream. -/
theorem numbered_mod_nodup {k : σ → ℕ} {s : σ} {as : List α} {m : ℕ}
    (h : (as.filter fun a ↦ stream a = s).length ≤ m) :
    (((numbered stream k as).filter fun x ↦ stream x.2 = s).map (·.1 % m)).Nodup := by
  have hmap : ((numbered stream k as).filter fun x ↦ stream x.2 = s).map (·.1 % m) =
      (List.range' (k s) (as.filter fun a ↦ stream a = s).length).map (· % m) := by
    rw [← numbered_numbers, List.map_map]
    rfl
  rw [hmap]
  apply List.Nodup.map_on _ List.nodup_range'
  intro i hi j hj hmod
  rw [List.mem_range'_1] at hi hj
  apply Nat.ModEq.eq_of_abs_lt hmod
  rw [abs_lt]
  omega

theorem not_infix_cons {losses : List Bool} {n d : ℕ}
    (h : ¬List.replicate n true <:+: List.replicate d true ++ true :: losses) :
    ¬List.replicate n true <:+: List.replicate (d + 1) true ++ losses := by
  rwa [List.replicate_succ', List.append_assoc, List.singleton_append]

theorem not_infix_drop {losses : List Bool} {n d : ℕ}
    (h : ¬List.replicate n true <:+: List.replicate d true ++ false :: losses) :
    ¬List.replicate n true <:+: List.replicate 0 true ++ losses := by
  intro hinfix
  apply h
  exact hinfix.trans ((List.suffix_cons false losses).isInfix.trans (List.suffix_append _ _).isInfix)

theorem lt_of_not_infix {losses : List Bool} {n d : ℕ}
    (h : ¬List.replicate n true <:+: List.replicate d true ++ losses) : d < n := by
  by_contra hle
  apply h
  have hsplit : List.replicate d true = List.replicate n true ++ List.replicate (d - n) true := by
    rw [List.replicate_append_replicate, Nat.add_sub_cancel' (Nat.le_of_not_lt hle)]
  rw [hsplit, List.append_assoc]
  exact (List.prefix_append _ _).isInfix

end EdgeSlice
