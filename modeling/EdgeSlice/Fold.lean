import Mathlib.Data.List.Basic
import Mathlib.Data.List.Induction

namespace EdgeSlice.Fold

variable {σ β γ : Type*} {f : σ → β → σ}

/-- A step that establishes a property of its own element and keeps that of the others
establishes it for the whole list. `I` is an invariant the step may use. -/
theorem establishes {I : σ → Prop} {P : σ → β → Prop} {bs : List β}
    (hI : ∀ s b, I s → I (f s b)) (hself : ∀ s, ∀ b ∈ bs, I s → P (f s b) b)
    (hkeep : ∀ s b c, I s → P s c → P (f s b) c) {s : σ} (hs : I s) :
    ∀ b ∈ bs, P (bs.foldl f s) b := by
  induction bs using List.reverseRecOn with
  | nil => exact List.forall_mem_nil _
  | append_singleton bs b ih =>
    have hI' : I (bs.foldl f s) := List.foldlRecOn bs f hs (fun s hs b _ ↦ hI s b hs)
    intro c hc
    rw [List.foldl_append]
    rcases List.mem_append.mp hc with hc | hc
    · exact hkeep _ b c hI' (ih (fun s b hb ↦ hself s b (List.mem_append_left _ hb)) c hc)
    · rw [List.mem_singleton.mp hc]
      exact hself _ b (List.mem_append_right _ List.mem_cons_self) hI'

/-- Where each step appends to an output, an element of the final output stems from the
start or from one of the steps. -/
theorem mem_output (out : σ → List γ) {new : σ → β → List γ}
    (hout : ∀ s b, out (f s b) = out s ++ new s b) {bs : List β} {s : σ} {a : γ} :
    a ∈ out (bs.foldl f s) ↔
      a ∈ out s ∨ ∃ front b back, bs = front ++ b :: back ∧ a ∈ new (front.foldl f s) b := by
  induction bs generalizing s with
  | nil => simp
  | cons b bs ih =>
    rw [List.foldl_cons, ih, hout, List.mem_append, or_assoc]
    refine or_congr_right ?_
    constructor
    · rintro (hnew | ⟨front, c, back, rfl, hnew⟩)
      · exact ⟨[], b, bs, rfl, hnew⟩
      · exact ⟨b :: front, c, back, rfl, hnew⟩
    · rintro ⟨front, c, back, hsplit, hnew⟩
      cases front with
      | nil =>
        obtain ⟨rfl, rfl⟩ := List.cons.inj hsplit
        exact .inl hnew
      | cons d front =>
        obtain ⟨rfl, rfl⟩ := List.cons.inj hsplit
        exact .inr ⟨front, c, back, rfl, hnew⟩

/-- An invariant of a loop over `0, …, n - 1` that speaks of the number of turns. -/
theorem range_induction {g : σ → ℕ → σ} {P : ℕ → σ → Prop} {n : ℕ} {s : σ} (hzero : P 0 s)
    (hstep : ∀ i < n, ∀ s, P i s → P (i + 1) (g s i)) : P n ((List.range n).foldl g s) := by
  induction n with
  | zero => exact hzero
  | succ n ih =>
    rw [List.range_succ, List.foldl_append]
    exact hstep n (Nat.lt_succ_self n) _ (ih (fun i hi ↦ hstep i (Nat.lt_succ_of_lt hi)))

/-- An invariant of a loop that may fail, which speaks of the elements that have had their turn. -/
theorem foldlM_induction {g : σ → β → Option σ} {P : List β → σ → Prop} {bs : List β} {s t : σ} (hnil : P [] s)
    (hstep : ∀ front b back s t, bs = front ++ b :: back → P front s → g s b = some t → P (front ++ [b]) t)
    (h : bs.foldlM g s = some t) : P bs t := by
  have hrest (front back : List β) (s : σ) (hbs : bs = front ++ back) (hs : P front s)
      (h : back.foldlM g s = some t) : P bs t := by
    induction back generalizing front s with
    | nil =>
      obtain rfl := Option.some.inj h
      rwa [hbs, List.append_nil]
    | cons b back ih =>
      rw [List.foldlM_cons, Option.bind_eq_bind, Option.bind_eq_some_iff] at h
      obtain ⟨u, hu, h⟩ := h
      exact ih (front ++ [b]) u (by rw [hbs, List.append_assoc]; rfl) (hstep front b back s u hbs hs hu) h
  exact hrest [] bs s rfl hnil h

section Writes

variable {κ ν : Type*} {g : σ → κ → ν} {w : β → κ → Option ν}

/-- A key that no turn writes keeps its value. -/
theorem get_of_unwritten (hstep : ∀ s b k, g (f s b) k = (w b k).getD (g s k)) {k : κ}
    {bs : List β} (hbs : ∀ b ∈ bs, w b k = none) (s : σ) :
    g (bs.foldl f s) k = g s k := by
  induction bs generalizing s with
  | nil => rfl
  | cons b bs ih =>
    rw [List.foldl_cons, ih (fun c hc ↦ hbs c (List.mem_cons_of_mem _ hc)), hstep,
      hbs b List.mem_cons_self, Option.getD_none]

/-- A key that is written, with one value only, has this value. -/
theorem get_of_written (hstep : ∀ s b k, g (f s b) k = (w b k).getD (g s k)) {k : κ}
    {v : ν} {bs : List β} (hsome : ∃ b ∈ bs, w b k = some v)
    (hbs : ∀ b ∈ bs, ∀ v', w b k = some v' → v' = v) (s : σ) :
    g (bs.foldl f s) k = v := by
  induction bs using List.reverseRecOn with
  | nil =>
    obtain ⟨b, hb, -⟩ := hsome
    cases hb
  | append_singleton bs c ih =>
    rw [List.foldl_append, List.foldl_cons, List.foldl_nil, hstep]
    cases hc : w c k with
    | some v' =>
      rw [Option.getD_some]
      exact hbs c (List.mem_append_right _ List.mem_cons_self) v' hc
    | none =>
      rw [Option.getD_none]
      refine ih ?_ (fun b hb ↦ hbs b (List.mem_append_left _ hb))
      obtain ⟨b, hb, hv⟩ := hsome
      rcases List.mem_append.mp hb with hb | hb
      · exact ⟨b, hb, hv⟩
      · rw [List.mem_singleton.mp hb, hc] at hv
        cases hv

end Writes

end EdgeSlice.Fold
