import EdgeSlice.Coding.SubBlock
import EdgeSlice.Coding.SubBlockTurbo

namespace EdgeSlice.Coding

open Function CountedLoop

variable {σ : Type*}

/-- The arguments that `lte_rate_matching_turbo` and `lte_rate_matching_turbo_rx` share. -/
structure RateMatching where
  G : ℕ
  C : ℕ
  Nsoft : ℕ
  Mdlharq : ℕ
  Kmimo : ℕ
  rvidx : ℕ
  Qm : ℕ
  Nl : ℕ
  r : ℕ

namespace RateMatching

/-- `Ncb`, the size of the circular buffer. -/
def ncb (RTC : ℕ) (p : RateMatching) : ℕ :=
  if p.Mdlharq > 0 then
    let Nir := p.Nsoft / p.Kmimo / min 8 p.Mdlharq
    min (Nir / p.C) (3 * (RTC <<< 5))
  else 3 * (RTC <<< 5)

/-- `E`, the number of bits. -/
def outputSize (p : RateMatching) : ℕ :=
  let Gp := p.G / p.Nl / p.Qm
  let GpmodC := Gp % p.C
  if p.r < p.C - GpmodC then p.Nl * p.Qm * (Gp / p.C)
  else p.Nl * p.Qm * ((if GpmodC = 0 then 0 else 1) + Gp / p.C)

/-- The value of `ind` at the start. -/
def firstIndex (RTC : ℕ) (p : RateMatching) : ℕ :=
  let Ncbmod := p.ncb RTC % (RTC <<< 3)
  RTC * (2 + (p.rvidx * ((if Ncbmod = 0 then 0 else 1) + p.ncb RTC / (RTC <<< 3)) * 2))

end RateMatching

/-- The `n` turns of the loop over `ind` that are left, with what is done for `k` and `ind`. -/
def pass (w : ℕ → UInt8) (E : ℕ) (act : ℕ → ℕ → σ → σ) : ℕ → ℕ → ℕ × σ → ℕ × σ
  | 0, _, (k, s) => (k, s)
  | n + 1, ind, (k, s) =>
    if k < E then
      if w ind ≠ lteNull then pass w E act n (ind + 1) (k + 1, act k ind s) else pass w E act n (ind + 1) (k, s)
    else (k, s)

/-- The passes from the start of the buffer, of which each takes a bit unless none is left. -/
def passes (w : ℕ → UInt8) (ncb E : ℕ) (act : ℕ → ℕ → σ → σ) : ℕ → ℕ × σ → Option σ
  | 0, _ => none
  | fuel + 1, (k, s) => if k < E then passes w ncb E act fuel (pass w E act ncb 0 (k, s)) else some s

/-- The loops of `lte_rate_matching_turbo` and `lte_rate_matching_turbo_rx`; `none` if they do not end. -/
def selectTurbo (w : ℕ → UInt8) (ncb ind E : ℕ) (act : ℕ → ℕ → σ → σ) (s : σ) : Option σ :=
  passes w ncb E act (E + 1) (pass w E act (ncb - ind) ind (0, s))

/-- `lte_rate_matching_turbo`, with `E`, `e2` and the value of `ind` for each `k`; `none` if it does not end. -/
def lteRateMatchingTurbo (RTC : ℕ) (p : RateMatching) (w e : ℕ → UInt8) : Option (ℕ × (ℕ → UInt8) × (ℕ → ℕ)) :=
  (selectTurbo w (p.ncb RTC) (p.firstIndex RTC) p.outputSize (putBit w) (e, fun _ ↦ 0)).map fun s ↦ (p.outputSize, s)

/-- Why `lte_rate_matching_turbo_rx` has no result. -/
inductive RateMatchingError
  | invalidParameters
  | endless
  deriving DecidableEq, Repr

/-- `lte_rate_matching_turbo_rx`, with `E_out`, `w` and the value of `ind` for each `k`. -/
def lteRateMatchingTurboRx (RTC : ℕ) (p : RateMatching) (w : ℕ → ℤ) (dummyW : ℕ → UInt8) (softInput : ℕ → ℤ)
    (clear : Bool) : Except RateMatchingError (ℕ × (ℕ → ℤ) × (ℕ → ℕ)) :=
  if p.Kmimo = 0 ∨ p.C = 0 ∨ p.Qm = 0 ∨ p.Nl = 0 then .error .invalidParameters
  else
    let w := if clear then turns (p.ncb RTC) (fun ind w ↦ update w ind 0) w else w
    match selectTurbo dummyW (p.ncb RTC) (p.firstIndex RTC) p.outputSize (addSoft softInput) (w, fun _ ↦ 0) with
    | none => .error .endless
    | some s => .ok (p.outputSize, s)

section Select

variable {w w' : ℕ → UInt8} {ncb E : ℕ}

theorem pass_congr (h : ∀ p < ncb, w p = lteNull ↔ w' p = lteNull) (act : ℕ → ℕ → σ → σ) {n ind : ℕ}
    (hn : ind + n ≤ ncb) (s : ℕ × σ) : pass w E act n ind s = pass w' E act n ind s := by
  induction n generalizing ind s with
  | zero => rfl
  | succ n ih =>
    simp only [pass, ne_eq, h ind (by omega)]
    rw [ih (by omega), ih (by omega)]

theorem passes_congr (h : ∀ p < ncb, w p = lteNull ↔ w' p = lteNull) (act : ℕ → ℕ → σ → σ) (fuel : ℕ) (s : ℕ × σ) :
    passes w ncb E act fuel s = passes w' ncb E act fuel s := by
  induction fuel generalizing s with
  | zero => rfl
  | succ fuel ih =>
    simp only [passes]
    rw [pass_congr h act (by omega), ih]

/-- What the loops do depends only on where the buffer has `LTE_NULL`. -/
theorem selectTurbo_congr (h : ∀ p < ncb, w p = lteNull ↔ w' p = lteNull) (act : ℕ → ℕ → σ → σ) (ind : ℕ) (s : σ) :
    selectTurbo w ncb ind E act s = selectTurbo w' ncb ind E act s := by
  have hpass : pass w E act (ncb - ind) ind (0, s) = pass w' E act (ncb - ind) ind (0, s) := by
    by_cases hind : ind ≤ ncb
    · exact pass_congr h act (by omega) _
    · rw [Nat.sub_eq_zero_of_le (by omega)]
      rfl
  rw [selectTurbo, selectTurbo, hpass, passes_congr h]

/-- The indices that the first `k` bits come from. -/
def Taken (w : ℕ → UInt8) (ncb : ℕ) (inds : ℕ → ℕ) (k : ℕ) : Prop := ∀ i < k, inds i < ncb ∧ w (inds i) ≠ lteNull

theorem Taken.update {inds : ℕ → ℕ} {k ind : ℕ} (h : Taken w ncb inds k) (hind : ind < ncb) (hw : w ind ≠ lteNull) :
    Taken w ncb (update inds k ind) (k + 1) := by
  intro i hi
  rcases Nat.lt_succ_iff_lt_or_eq.mp hi with hlt | rfl
  · rw [update_of_ne hlt.ne]
    exact h i hlt
  · rw [update_self]
    exact ⟨hind, hw⟩

theorem act_turns (act : ℕ → ℕ → σ → σ) (inds : ℕ → ℕ) (k ind : ℕ) (s : σ) :
    act k ind (turns k (fun i ↦ act i (inds i)) s) = turns (k + 1) (fun i ↦ act i (update inds k ind i)) s := by
  rw [turns_succ, update_self]
  congr 1
  exact turns_congr (fun i hi ↦ by rw [update_of_ne hi.ne]) s

/-- A pass takes the same bits whatever it does with them, and at least one where there is one. -/
theorem pass_taken (n ind : ℕ) {k : ℕ} (hn : ind + n ≤ ncb) (hk : k ≤ E) {inds : ℕ → ℕ} (hinds : Taken w ncb inds k) :
    ∃ (inds' : ℕ → ℕ) (k' : ℕ), k ≤ k' ∧ k' ≤ E ∧ Taken w ncb inds' k' ∧
      (k < E → (∃ p, ind ≤ p ∧ p < ind + n ∧ w p ≠ lteNull) → k < k') ∧
      ∀ (σ : Type) (act : ℕ → ℕ → σ → σ) (s : σ), pass w E act n ind (k, turns k (fun i ↦ act i (inds i)) s) =
        (k', turns k' (fun i ↦ act i (inds' i)) s) := by
  induction n generalizing ind k inds with
  | zero => exact ⟨inds, k, le_rfl, hk, hinds, fun _ ⟨p, hp, hp', _⟩ ↦ by omega, fun _ _ _ ↦ rfl⟩
  | succ n ih =>
    by_cases hlt : k < E
    · by_cases hnull : w ind = lteNull
      · obtain ⟨inds', k', hle, hE, htaken, hstrict, hpass⟩ := ih (ind + 1) (by omega) hk hinds
        refine ⟨inds', k', hle, hE, htaken, fun _ ⟨p, hp, hp', hw⟩ ↦ hstrict hlt ⟨p, ?_, by omega, hw⟩, fun σ act s ↦ ?_⟩
        · have hne : ind ≠ p := fun heq ↦ hw (heq ▸ hnull)
          omega
        · rw [pass, if_pos hlt, if_neg (not_not_intro hnull), hpass]
      · obtain ⟨inds', k', hle, hE, htaken, -, hpass⟩ := ih (ind + 1) (by omega) hlt (hinds.update (by omega) hnull)
        refine ⟨inds', k', by omega, hE, htaken, fun _ _ ↦ hle, fun σ act s ↦ ?_⟩
        rw [pass, if_pos hlt, if_pos hnull, act_turns act inds, hpass]
    · refine ⟨inds, k, le_rfl, hk, hinds, fun h ↦ absurd h hlt, fun σ act s ↦ ?_⟩
      rw [pass, if_neg hlt]

/-- The passes end where there is a bit to take. -/
theorem passes_taken (hbit : ∃ p < ncb, w p ≠ lteNull) (fuel : ℕ) {k : ℕ} (hk : k ≤ E) (hfuel : E - k < fuel)
    {inds : ℕ → ℕ} (hinds : Taken w ncb inds k) :
    ∃ inds' : ℕ → ℕ, Taken w ncb inds' E ∧ ∀ (σ : Type) (act : ℕ → ℕ → σ → σ) (s : σ),
      passes w ncb E act fuel (k, turns k (fun i ↦ act i (inds i)) s) = some (turns E (fun i ↦ act i (inds' i)) s) := by
  induction fuel generalizing k inds with
  | zero => exact absurd hfuel (Nat.not_lt_zero _)
  | succ fuel ih =>
    by_cases hlt : k < E
    · obtain ⟨p, hp, hw⟩ := hbit
      obtain ⟨inds', k', -, hE, htaken, hstrict, hpass⟩ := pass_taken ncb 0 (by omega) hk hinds
      have hmore := hstrict hlt ⟨p, Nat.zero_le p, by omega, hw⟩
      obtain ⟨inds'', htaken', hpasses⟩ := ih hE (by omega) htaken
      refine ⟨inds'', htaken', fun σ act s ↦ ?_⟩
      rw [passes, if_pos hlt, hpass, hpasses]
    · obtain rfl : k = E := by omega
      refine ⟨inds, hinds, fun σ act s ↦ ?_⟩
      rw [passes, if_neg hlt]

/-- The loops take the same bits whatever they do with them. -/
theorem selectTurbo_taken (hbit : ∃ p < ncb, w p ≠ lteNull) (ind E : ℕ) :
    ∃ inds : ℕ → ℕ, Taken w ncb inds E ∧ ∀ (σ : Type) (act : ℕ → ℕ → σ → σ) (s : σ),
      selectTurbo w ncb ind E act s = some (turns E (fun i ↦ act i (inds i)) s) := by
  have hnone : Taken w ncb (fun _ ↦ 0) 0 := fun i hi ↦ absurd hi (Nat.not_lt_zero i)
  have hfirst : ∃ (inds : ℕ → ℕ) (k : ℕ), k ≤ E ∧ Taken w ncb inds k ∧ ∀ (σ : Type) (act : ℕ → ℕ → σ → σ) (s : σ),
      pass w E act (ncb - ind) ind (0, s) = (k, turns k (fun i ↦ act i (inds i)) s) := by
    by_cases hind : ind ≤ ncb
    · obtain ⟨inds, k, -, hk, htaken, -, hpass⟩ := pass_taken (ncb - ind) ind (by omega) (Nat.zero_le E) hnone
      exact ⟨inds, k, hk, htaken, hpass⟩
    · refine ⟨fun _ ↦ 0, 0, Nat.zero_le E, hnone, fun σ act s ↦ ?_⟩
      rw [Nat.sub_eq_zero_of_le (by omega)]
      rfl
  obtain ⟨inds, k, hk, htaken, hpass⟩ := hfirst
  obtain ⟨inds', htaken', hpasses⟩ := passes_taken hbit (E + 1) hk (by omega) htaken
  refine ⟨inds', htaken', fun σ act s ↦ ?_⟩
  rw [selectTurbo, hpass, hpasses]

end Select

end EdgeSlice.Coding

namespace EdgeSlice.Coding

open Function CountedLoop SubBlockTurbo

/-- A codeword behind its dummy bits, with `F` filler bits. -/
structure CodewordTurbo (D F : ℕ) (d : ℤ → UInt8) : Prop where
  null : ∀ x, -(3 * nullBits D : ℤ) ≤ x → x < 0 → d x = lteNull
  filler : ∀ i < F, d (3 * i) = lteNull ∧ d (3 * i + 1) = lteNull
  bits : ∀ i, F ≤ i → i < D → (d (3 * i) = 0 ∨ d (3 * i) = 1) ∧ (d (3 * i + 1) = 0 ∨ d (3 * i + 1) = 1)
  parity : ∀ i < D, d (3 * i + 2) = 0 ∨ d (3 * i + 2) = 1

/-- The cell of `d` that each cell of `w` has been read from; the last cell has been read from none. -/
def originsTurbo (D : ℕ) : ℕ → Option ℤ := (subBlockInterleavingTurbo none D some fun _ ↦ none).1

/-- The sum of the soft inputs that carry the bit `x`. -/
def carriedTurbo (D E : ℕ) (inds : ℕ → ℕ) (softInput : ℕ → ℤ) (x : ℤ) : ℤ :=
  ∑ k ∈ Finset.range E with originsTurbo D (inds k) = some x, softInput k

/-- The code blocks share all the bits. -/
theorem sum_outputSize (p : RateMatching) (hC : 0 < p.C) :
    ∑ r ∈ Finset.range p.C, { p with r := r }.outputSize = p.Nl * p.Qm * (p.G / p.Nl / p.Qm) := by
  have hmod := Nat.mod_lt (p.G / p.Nl / p.Qm) hC
  have hfull (n : ℕ) (hn : n ≤ p.C) : ∑ r ∈ Finset.range n, { p with r := r }.outputSize =
      p.Nl * p.Qm * (p.G / p.Nl / p.Qm / p.C * n + (n - (p.C - p.G / p.Nl / p.Qm % p.C))) := by
    induction n with
    | zero => simp
    | succ n ih =>
      rw [Finset.sum_range_succ, ih (by omega), RateMatching.outputSize]
      simp only
      by_cases hsmall : n < p.C - p.G / p.Nl / p.Qm % p.C
      · have hnone : n - (p.C - p.G / p.Nl / p.Qm % p.C) = 0 := by omega
        have hnone' : n + 1 - (p.C - p.G / p.Nl / p.Qm % p.C) = 0 := by omega
        rw [if_pos hsmall, hnone, hnone']
        ring
      · have hne : p.G / p.Nl / p.Qm % p.C ≠ 0 := by omega
        have hmore : n + 1 - (p.C - p.G / p.Nl / p.Qm % p.C) = n - (p.C - p.G / p.Nl / p.Qm % p.C) + 1 := by omega
        rw [if_neg hsmall, if_neg hne, hmore]
        ring
  have hrest : p.C - (p.C - p.G / p.Nl / p.Qm % p.C) = p.G / p.Nl / p.Qm % p.C := by omega
  rw [hfull p.C le_rfl, hrest, Nat.div_add_mod']

variable {D F : ℕ} {d : ℤ → UInt8}

theorem ne_lteNull {b : UInt8} (h : b = 0 ∨ b = 1) : b ≠ lteNull := by
  rcases h with rfl | rfl
  · decide
  · decide

namespace CodewordTurbo

/-- The systematic bits and the first parity bits. -/
theorem null_iff (hd : CodewordTurbo D F d) {i : ℕ} (hi : i < kPi D) (j : Fin 2) :
    d (3 * ((i : ℤ) - nullBits D) + j.val) = lteNull ↔ i < nullBits D + F := by
  have hsum := nullBits_add D
  by_cases hdummy : i < nullBits D
  · exact iff_of_true (hd.null _ (by omega) (by omega)) (by omega)
  · obtain ⟨m, rfl⟩ : ∃ m, i = nullBits D + m := ⟨i - nullBits D, by omega⟩
    have hx : 3 * (((nullBits D + m : ℕ) : ℤ) - nullBits D) + j.val = 3 * m + j.val := by omega
    rw [hx]
    by_cases hm : m < F
    · refine iff_of_true ?_ (by omega)
      match j with
      | 0 => simpa using (hd.filler m hm).1
      | 1 => exact (hd.filler m hm).2
    · refine iff_of_false ?_ (by omega)
      have hbits := hd.bits m (by omega) (by omega)
      match j with
      | 0 => simpa using ne_lteNull hbits.1
      | 1 => exact ne_lteNull hbits.2

/-- The second parity bits. -/
theorem parity_null_iff (hd : CodewordTurbo D F d) {i : ℕ} (hi : i + 1 < kPi D) :
    d (3 * ((i : ℤ) - nullBits D) + 5) = lteNull ↔ i + 1 < nullBits D := by
  have hsum := nullBits_add D
  by_cases hdummy : i + 1 < nullBits D
  · exact iff_of_true (hd.null _ (by omega) (by omega)) hdummy
  · have hx : 3 * ((i : ℤ) - nullBits D) + 5 = 3 * ((i + 1 - nullBits D : ℕ) : ℤ) + 2 := by omega
    rw [hx]
    exact iff_of_false (ne_lteNull (hd.parity _ (by omega))) hdummy

/-- Only a filler bit, a dummy bit and the last cell are `LTE_NULL`. -/
theorem interleaved_null (hd : CodewordTurbo D F d) (hnull : 0 < nullBits D) (w : ℕ → UInt8) {k : ℕ}
    (hk : k < kPi D) (j : Fin 3) : (subBlockInterleavingTurbo lteNull D d w).1 (cell D k j) = lteNull ↔
      cell D k j = 3 * kPi D - 1 ∨ Nulled D F k j := by
  have hperm := permutes_bitrev.permuted_lt hk
  rw [interleaving_cell lteNull hnull hk]
  split_ifs with hlast
  · exact iff_of_true rfl (.inl hlast)
  · simp only [hlast, false_or, Nulled]
    match j with
    | 0 => simpa [position] using hd.null_iff hperm 0
    | 1 => simpa [position] using hd.null_iff hperm 1
    | 2 =>
      have hinner : permuted bitrev D k + 1 < kPi D := by
        have hne : position D k 2 ≠ 3 * D + 2 := fun h ↦ hlast ((position_eq_last_iff hk).mp h)
        have hsum := nullBits_add D
        simp only [position] at hne
        omega
      simpa [position] using hd.parity_null_iff hinner

end CodewordTurbo

theorem originsTurbo_cell (hnull : 0 < nullBits D) {k : ℕ} (hk : k < kPi D) (j : Fin 3) :
    originsTurbo D (cell D k j) = if cell D k j = 3 * kPi D - 1 then none else some (position D k j) :=
  interleaving_cell none hnull hk

/-- The cell of a bit is the only one that has been read from it. -/
theorem originsTurbo_eq_iff (hnull : 0 < nullBits D) {k : ℕ} (hk : k < kPi D) {j : Fin 3} {q : ℕ} (hq : q < 3 * kPi D)
    (hx : position D k j < 3 * D) : originsTurbo D q = some (position D k j) ↔ q = cell D k j := by
  obtain ⟨k', hk', j', rfl⟩ := exists_cell hq
  rw [originsTurbo_cell hnull hk']
  constructor
  · intro h
    split_ifs at h with hlast
    obtain ⟨rfl, rfl⟩ := position_inj hk' hk (Option.some.inj h)
    rfl
  · intro h
    obtain ⟨rfl, rfl⟩ := cell_inj hk' hk h
    have hne : cell D k' j' ≠ 3 * kPi D - 1 := by
      intro hlast
      rw [(position_eq_last_iff hk).mpr hlast] at hx
      omega
    rw [if_neg hne]

theorem ncb_le (p : RateMatching) : p.ncb (rows D) ≤ 3 * kPi D := by
  rw [RateMatching.ncb]
  split
  · exact Nat.min_le_right _ _
  · exact le_rfl

theorem turns_clear (n : ℕ) : turns n (fun ind (w : ℕ → ℤ) ↦ update w ind 0) (fun _ ↦ 0) = fun _ ↦ 0 := by
  funext q
  rw [turns_update n (fun _ ↦ 0)]
  split <;> rfl

/-- Rate matching is undone: both sides mark and go through the same cells, the code blocks share all the bits, and
behind the deinterleaver each bit is what has been received for it. -/
theorem rateMatchingTurbo_roundTrip {K : ℕ} (h8 : 8 ∣ K) (hD : D = K + 4) (hF : F ≤ K) (hrows : nullBits D + F ≤ 96)
    (hd : CodewordTurbo D F d) (w e : ℕ → UInt8) (d' : ℤ → ℤ) (softInput : ℕ → ℤ) (clear : Bool) (p : RateMatching)
    (hC : 0 < p.C) (hQm : 0 < p.Qm) (hNl : 0 < p.Nl) (hKmimo : 0 < p.Kmimo) :
    let tx := subBlockInterleavingTurbo lteNull D d w
    let rx := generateDummyW D (fun _ ↦ 0) F
    (∀ q < 3 * kPi D, tx.1 q = lteNull ↔ rx.1 q = lteNull) ∧
      ∑ r ∈ Finset.range p.C, { p with r := r }.outputSize = p.Nl * p.Qm * (p.G / p.Nl / p.Qm) ∧
      ((∃ q < p.ncb tx.2, tx.1 q ≠ lteNull) → ∃ E eTx wRx inds, lteRateMatchingTurbo tx.2 p tx.1 e = some (E, eTx, inds) ∧
        lteRateMatchingTurboRx rx.2 p (fun _ ↦ 0) rx.1 softInput clear = .ok (E, wRx, inds) ∧
        (∀ k < E, ∃ x, originsTurbo D (inds k) = some x ∧ eTx k = d x) ∧
        ∀ x : ℤ, 0 ≤ x → x < 3 * D → |carriedTurbo D E inds softInput x| < 2 ^ 15 →
          subBlockDeinterleavingTurbo D d' wRx x = carriedTurbo D E inds softInput x) := by
  have hnull : 0 < nullBits D := by
    rw [nullBits, kPi_eq, rows_eq]
    omega
  have hsame : ∀ q < 3 * kPi D, (subBlockInterleavingTurbo lteNull D d w).1 q = lteNull ↔
      (generateDummyW D (fun _ ↦ 0) F).1 q = lteNull := by
    intro q hq
    obtain ⟨k, hk, j, rfl⟩ := exists_cell hq
    rw [hd.interleaved_null hnull w hk, dummy_cell hnull (by omega) hrows hk]
  have hrtc : (subBlockInterleavingTurbo lteNull D d w).2 = rows D := rfl
  have hrtc' : (generateDummyW D (fun _ ↦ 0) F).2 = rows D := rfl
  simp only [hrtc, hrtc']
  refine ⟨hsame, sum_outputSize p hC, fun hbit ↦ ?_⟩
  have hle := ncb_le (D := D) p
  obtain ⟨inds, htaken, hselect⟩ := selectTurbo_taken hbit (p.firstIndex (rows D)) p.outputSize
  have hsent : lteRateMatchingTurbo (rows D) p (subBlockInterleavingTurbo lteNull D d w).1 e = some (p.outputSize,
      turns p.outputSize (fun k e ↦ update e k ((subBlockInterleavingTurbo lteNull D d w).1 (inds k))) e,
      used inds p.outputSize) := by
    rw [lteRateMatchingTurbo, hselect, turns_putBit, Option.map_some]
  have hgot : lteRateMatchingTurboRx (rows D) p (fun _ ↦ 0) (generateDummyW D (fun _ ↦ 0) F).1 softInput clear =
      .ok (p.outputSize, combined softInput inds p.outputSize, used inds p.outputSize) := by
    have hcleared : (if clear then turns (p.ncb (rows D)) (fun ind (w : ℕ → ℤ) ↦ update w ind 0) fun _ ↦ 0
        else fun _ ↦ 0) = fun _ ↦ 0 := by rw [turns_clear, ite_self]
    have hvalid : ¬ (p.Kmimo = 0 ∨ p.C = 0 ∨ p.Qm = 0 ∨ p.Nl = 0) := by omega
    have hrx := selectTurbo_congr (E := p.outputSize) (fun q hq ↦ hsame q (hq.trans_le hle)) (addSoft softInput)
      (p.firstIndex (rows D)) (fun _ ↦ 0, fun _ ↦ 0)
    rw [lteRateMatchingTurboRx, if_neg hvalid]
    simp only [hcleared]
    rw [← hrx, hselect, turns_addSoft]
  refine ⟨_, _, _, _, hsent, hgot, fun k hk ↦ ?_, fun x hx hx' hsum ↦ ?_⟩
  · have hcell := htaken k hk
    obtain ⟨k', hk', j, hq⟩ := exists_cell (hcell.1.trans_le hle)
    have hne : cell D k' j ≠ 3 * kPi D - 1 := by
      intro hlast
      rw [hq, interleaving_cell lteNull hnull hk', if_pos hlast] at hcell
      exact hcell.2 rfl
    refine ⟨position D k' j, ?_, ?_⟩
    · rw [used_eq hk, hq, originsTurbo_cell hnull hk', if_neg hne]
    · rw [turns_update, if_pos hk, hq, interleaving_cell lteNull hnull hk', if_neg hne]
  · obtain ⟨k, hk, j, rfl⟩ := exists_position hnull hx hx'
    rw [deinterleaving_position hk, combined_eq]
    have hterms : (∑ k' ∈ Finset.range p.outputSize with inds k' = cell D k j, softInput k') =
        carriedTurbo D p.outputSize (used inds p.outputSize) softInput (position D k j) := by
      refine Finset.sum_congr (Finset.filter_congr fun k' hk' ↦ ?_) fun _ _ ↦ rfl
      have hlt := Finset.mem_range.mp hk'
      rw [used_eq hlt, originsTurbo_eq_iff hnull hk ((htaken k' hlt).1.trans_le hle) hx']
    rw [hterms, Int.bmod_eq_of_le (by have := abs_lt.mp hsum; omega) (by have := abs_lt.mp hsum; omega)]

/-- The codeword 0…0 behind `F` filler bits. -/
def zerosTurbo (F : ℕ) (x : ℤ) : UInt8 := if x < 0 ∨ x < 3 * F ∧ x % 3 ≠ 2 then lteNull else 0

theorem codewordTurbo_zeros (D F : ℕ) : CodewordTurbo D F (zerosTurbo F) where
  null _ _ hx := if_pos (.inl hx)
  filler i hi := ⟨if_pos (.inr (by omega)), if_pos (.inr (by omega))⟩
  bits i hi _ := ⟨.inl (if_neg (by omega)), .inl (if_neg (by omega))⟩
  parity i _ := .inl (if_neg (by omega))

/-- A code block of 40 bits, 8 of which are filler bits, sent with QPSK in 600 soft inputs. -/
def smallBlock : RateMatching := ⟨600, 1, 1827072, 0, 1, 0, 2, 1, 0⟩

theorem rateMatchingTurbo_zeros : ∃ E eTx wRx inds,
    lteRateMatchingTurbo (rows 44) smallBlock (subBlockInterleavingTurbo lteNull 44 (zerosTurbo 8) fun _ ↦ 0).1
      (fun _ ↦ 0) = some (E, eTx, inds) ∧
    lteRateMatchingTurboRx (rows 44) smallBlock (fun _ ↦ 0) (generateDummyW 44 (fun _ ↦ 0) 8).1 (fun _ ↦ 1) true =
      .ok (E, wRx, inds) ∧
    ∀ x : ℤ, 0 ≤ x → x < 132 → |carriedTurbo 44 E inds (fun _ ↦ 1) x| < 2 ^ 15 →
      subBlockDeinterleavingTurbo 44 (fun _ ↦ 0) wRx x = carriedTurbo 44 E inds (fun _ ↦ 1) x := by
  have hbit : (subBlockInterleavingTurbo lteNull 44 (zerosTurbo 8) fun _ ↦ 0).1 (cell 44 1 0) ≠ lteNull := by
    rw [ne_eq, (codewordTurbo_zeros 44 8).interleaved_null (by decide) _ (by decide), Nulled]
    decide
  obtain ⟨-, -, hruns⟩ := rateMatchingTurbo_roundTrip (K := 40) (D := 44) (F := 8) (by decide) rfl (by decide)
    (by decide) (codewordTurbo_zeros 44 8) (fun _ ↦ 0) (fun _ ↦ 0) (fun _ ↦ 0) (fun _ ↦ 1) true smallBlock (by decide)
    (by decide) (by decide) (by decide)
  have hncb : smallBlock.ncb (subBlockInterleavingTurbo lteNull 44 (zerosTurbo 8) fun _ ↦ 0).2 = 192 := rfl
  obtain ⟨E, eTx, wRx, inds, htx, hrx, -, hbits⟩ := hruns ⟨cell 44 1 0, by rw [hncb, cell]; omega, hbit⟩
  exact ⟨E, eTx, wRx, inds, htx, hrx, hbits⟩

end EdgeSlice.Coding
