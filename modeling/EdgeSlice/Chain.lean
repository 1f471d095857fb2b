import EdgeSlice.ByteMemory

namespace EdgeSlice.Chain

open ByteMemory

variable {α β σ ε : Type*}

/-- The bytes of a list of elements, each of which says whether another one
follows. -/
def chain (enc : Bool → α → List β) : List α → List β
  | [] => []
  | [a] => enc false a
  | a :: b :: as => enc true a ++ chain enc (b :: as)

/-- A loop that repeats a step as long as the step asks for more. `stuck` is its
result when the fuel is used up. -/
def loop (stuck : ε) (step : σ → Except ε (Bool × σ)) : ℕ → σ → Except ε σ
  | 0, _ => .error stuck
  | fuel + 1, s =>
    match step s with
    | .error e => .error e
    | .ok (true, s') => loop stuck step fuel s'
    | .ok (false, s') => .ok s'

/-- The effect of the elements of a list, one after the other. -/
def run (act : σ → Bool → α → Except ε σ) : List α → σ → Except ε σ
  | [], s => .ok s
  | [a], s => act s false a
  | a :: b :: as, s =>
    match act s true a with
    | .error e => .error e
    | .ok s' => run act (b :: as) s'

variable {enc : Bool → α → List β}

theorem chain_snoc (as : List α) (a : α) :
    chain enc (as ++ [a]) = as.flatMap (enc true) ++ enc false a := by
  induction as with
  | nil => rfl
  | cons b as ih => cases as <;> simp_all [chain]

theorem length_le_chain (henc : ∀ more a, enc more a ≠ []) (as : List α) :
    as.length ≤ (chain enc as).length := by
  induction as with
  | nil => simp
  | cons a as ih =>
    cases as with
    | nil => exact List.length_pos_of_ne_nil (henc false a)
    | cons b as =>
      have := List.length_pos_of_ne_nil (henc true a)
      simp only [chain, List.length_append, List.length_cons] at ih ⊢
      omega

/-- The elements `as`, each followed by another one, lead from `g []` through
the states that `g` gives for their initial segments. -/
inductive Path (act : σ → Bool → α → Except ε σ) (g : List α → σ) : List α → Prop
  | nil : Path act g []
  | snoc {as : List α} {a : α} (h : Path act g as)
      (ha : act (g as) true a = .ok (g (as ++ [a]))) : Path act g (as ++ [a])

theorem Path.run {act : σ → Bool → α → Except ε σ} {g : List α → σ} {as : List α}
    (h : Path act g as) {bs : List α} (hbs : bs ≠ []) :
    run act (as ++ bs) (g []) = Chain.run act bs (g as) := by
  induction h generalizing bs with
  | nil => rfl
  | @snoc as a h ha ih =>
    obtain ⟨b, rest, rfl⟩ := List.exists_cons_of_ne_nil hbs
    rw [List.append_assoc, List.singleton_append, ih (List.cons_ne_nil a _), Chain.run, ha]

/-- A step that decodes one element makes the loop decode a chain. -/
theorem loop_chain {stuck : ε} {mem : ℕ → β} {pos : σ → ℕ} {valid : α → Prop}
    {step : σ → Except ε (Bool × σ)} {act : σ → Bool → α → Except ε σ}
    (hstep : ∀ s more a, valid a → Stores mem (pos s) (enc more a) →
      step s = (act s more a).map (fun s' ↦ (more, s')))
    (hpos : ∀ s more a s', act s more a = .ok s' → pos s' = pos s + (enc more a).length)
    {as : List α} (has : as ≠ []) (hvalid : ∀ a ∈ as, valid a) {fuel : ℕ}
    (hfuel : as.length ≤ fuel) {s : σ} (hmem : Stores mem (pos s) (chain enc as)) :
    loop stuck step fuel s = run act as s := by
  induction as generalizing fuel s with
  | nil => exact absurd rfl has
  | cons a as ih =>
    obtain ⟨ha, hvalid⟩ := List.forall_mem_cons.mp hvalid
    obtain ⟨fuel, rfl⟩ : ∃ n, fuel = n + 1 := ⟨fuel - 1, by simp at hfuel; omega⟩
    cases as with
    | nil =>
      rw [loop, hstep s false a ha hmem, run]
      cases act s false a <;> rfl
    | cons b as =>
      obtain ⟨hhead, htail⟩ := stores_append.mp hmem
      rw [loop, hstep s true a ha hhead, run]
      cases hact : act s true a with
      | error e => rfl
      | ok s' =>
        apply ih (by simp) hvalid (by simpa using hfuel)
        rw [hpos s true a s' hact]
        exact htail

section Trajectory

variable {stuck : ε} {step : σ → Except ε (Bool × σ)} {g : ℕ → σ}

/-- The first turns of a loop whose states are known in advance. -/
theorem loop_trajectory {n fuel : ℕ} (h : ∀ k < n, step (g k) = .ok (true, g (k + 1)))
    (hn : n ≤ fuel) : loop stuck step fuel (g 0) = loop stuck step (fuel - n) (g n) := by
  induction n with
  | zero => rfl
  | succ n ih =>
    obtain ⟨rest, hrest⟩ : ∃ rest, fuel - n = rest + 1 := ⟨fuel - n - 1, by omega⟩
    rw [ih (fun k hk ↦ h k (by omega)) (by omega), hrest, loop, h n (Nat.lt_succ_self n)]
    exact congrArg (fun m ↦ loop stuck step m (g (n + 1))) (by omega)

theorem loop_fails {n fuel : ℕ} {e : ε} (h : ∀ k < n, step (g k) = .ok (true, g (k + 1)))
    (hn : n < fuel) (he : step (g n) = .error e) : loop stuck step fuel (g 0) = .error e := by
  obtain ⟨rest, hrest⟩ : ∃ rest, fuel - n = rest + 1 := ⟨fuel - n - 1, by omega⟩
  rw [loop_trajectory h (Nat.le_of_lt hn), hrest, loop, he]

theorem loop_stops {n fuel : ℕ} (h : ∀ k < n, step (g k) = .ok (true, g (k + 1)))
    (hn : n < fuel) (hs : step (g n) = .ok (false, g (n + 1))) :
    loop stuck step fuel (g 0) = .ok (g (n + 1)) := by
  obtain ⟨rest, hrest⟩ : ∃ rest, fuel - n = rest + 1 := ⟨fuel - n - 1, by omega⟩
  rw [loop_trajectory h (Nat.le_of_lt hn), hrest, loop, hs]

/-- A loop that keeps to the states `g` runs out of fuel, fails at one of them or
stops at one of them. -/
theorem loop_ends (hg : ∀ k more s, step (g k) = .ok (more, s) → s = g (k + 1)) (fuel : ℕ) :
    (∀ k < fuel, step (g k) = .ok (true, g (k + 1))) ∨
      ∃ n < fuel, (∀ k < n, step (g k) = .ok (true, g (k + 1))) ∧
        ((∃ e, step (g n) = .error e) ∨ step (g n) = .ok (false, g (n + 1))) := by
  induction fuel with
  | zero => exact .inl (fun k hk ↦ by omega)
  | succ fuel ih =>
    rcases ih with hall | ⟨n, hn, hfront, hlast⟩
    · cases hstep : step (g fuel) with
      | error e => exact .inr ⟨fuel, Nat.lt_succ_self fuel, hall, .inl ⟨e, hstep⟩⟩
      | ok r =>
        obtain ⟨more, s⟩ := r
        have hs := hg fuel more s hstep
        subst hs
        cases more with
        | false => exact .inr ⟨fuel, Nat.lt_succ_self fuel, hall, .inr hstep⟩
        | true =>
          refine .inl (fun k hk ↦ ?_)
          rcases Nat.lt_succ_iff_lt_or_eq.mp hk with hk | rfl
          · exact hall k hk
          · exact hstep
    · exact .inr ⟨n, Nat.lt_succ_of_lt hn, hfront, hlast⟩

end Trajectory

/-- A loop whose step fails more often either fails so or does the same. -/
theorem loop_restrict {stuck : ε} {step step' : σ → Except ε (Bool × σ)}
    (h : ∀ s, step' s = .error stuck ∨ step' s = step s) (fuel : ℕ) (s : σ) :
    loop stuck step' fuel s = .error stuck ∨ loop stuck step' fuel s = loop stuck step fuel s := by
  induction fuel generalizing s with
  | zero => exact .inl rfl
  | succ fuel ih =>
    rw [loop, loop]
    rcases h s with hfail | hsame
    · rw [hfail]
      exact .inl rfl
    · rw [hsame]
      rcases step s with e | ⟨more, s'⟩
      · exact .inr rfl
      · cases more with
        | false => exact .inr rfl
        | true => exact ih s'

end EdgeSlice.Chain
