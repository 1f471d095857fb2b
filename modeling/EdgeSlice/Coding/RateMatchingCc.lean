import EdgeSlice.Coding.SubBlock

namespace EdgeSlice.Coding

open Function CountedLoop

variable {β : Type*}

/-- `sub_block_interleaving_cc`, with `d` from the dummy bits on, which have negative indices. -/
def subBlockInterleavingCc (D : ℕ) (d : ℤ → β) (w : ℕ → β) : (ℕ → β) × ℕ :=
  let nd3 := nullBits D * 3
  let w := columnWise 32 (rows D) 96 (fun col ↦ 3 * bitrevCc.getD col 0) (fun k index3 w ↦
    update (update (update w k (d ((index3 : ℤ) - nd3))) (kPi D + k) (d ((index3 : ℤ) - nd3 + 1)))
      ((kPi D <<< 1) + k) (d ((index3 : ℤ) - nd3 + 2))) w
  (w, rows D)

/-- `sub_block_deinterleaving_cc` -/
def subBlockDeinterleavingCc (D : ℕ) (d : ℤ → β) (w : ℕ → β) : ℤ → β :=
  let nd3 := nullBits D * 3
  columnWise 32 (rows D) 96 (fun col ↦ 3 * bitrevCc.getD col 0) (fun k index3 d ↦
    update (update (update d ((index3 : ℤ) - nd3) (w k)) ((index3 : ℤ) - nd3 + 1) (w (kPi D + k)))
      ((index3 : ℤ) - nd3 + 2) (w ((kPi D <<< 1) + k))) d

/-- `generate_dummy_w_cc` -/
def generateDummyWCc (D : ℕ) (w : ℕ → UInt8) : (ℕ → UInt8) × ℕ :=
  let (w, _) := (List.range 32).foldl (fun (w, k) col ↦
    (if bitrevCc.getD col 0 < nullBits D then
      update (update (update w k lteNull) (kPi D + k) lteNull) ((kPi D <<< 1) + k) lteNull
    else w, k + rows D)) (w, 0)
  (w, rows D)

namespace SubBlockCc

variable {D k k' : ℕ} {d : ℤ → β} {w : ℕ → β} {j j' : Fin 3}

/-- The cell of `w` that the stream `j` is written to in turn `k`. -/
def cell (D k : ℕ) (j : Fin 3) : ℕ := j.val * kPi D + k

/-- The cell of `d` that is read for it. -/
def position (D k : ℕ) (j : Fin 3) : ℤ := 3 * ((permuted bitrevCc D k : ℤ) - nullBits D) + j.val

theorem cell_inj (hk : k < kPi D) (hk' : k' < kPi D) (h : cell D k j = cell D k' j') : k = k' ∧ j = j' := by
  rw [cell, cell] at h
  have hmod := congrArg (· % kPi D) h
  simp only [Nat.mul_add_mod', Nat.mod_eq_of_lt hk, Nat.mod_eq_of_lt hk'] at hmod
  subst hmod
  refine ⟨rfl, Fin.ext ?_⟩
  exact Nat.eq_of_mul_eq_mul_right (by omega) (Nat.add_right_cancel h)

theorem cell_lt (hk : k < kPi D) (j : Fin 3) : cell D k j < 3 * kPi D := by
  rw [cell]
  have hj : j.val * kPi D ≤ 2 * kPi D := Nat.mul_le_mul_right _ (by omega)
  omega

theorem exists_cell {p : ℕ} (hp : p < 3 * kPi D) : ∃ k < kPi D, ∃ j, p = cell D k j := by
  have hpos : 0 < kPi D := by omega
  refine ⟨p % kPi D, Nat.mod_lt p hpos, ⟨p / kPi D, Nat.div_lt_of_lt_mul (by rwa [Nat.mul_comm])⟩, ?_⟩
  rw [cell, Nat.div_add_mod']

theorem position_inj (hk : k < kPi D) (hk' : k' < kPi D) (h : position D k j = position D k' j') :
    k = k' ∧ j = j' := by
  rw [position, position] at h
  have hsame : permuted bitrevCc D k = permuted bitrevCc D k' ∧ j.val = j'.val := by omega
  exact ⟨permutes_bitrevCc.permuted_inj hk hk' hsame.1, Fin.ext hsame.2⟩

theorem exists_position {x : ℤ} (hx : -(3 * nullBits D : ℤ) ≤ x) (hx' : x < 3 * D) :
    ∃ k < kPi D, ∃ j, x = position D k j := by
  have hsum := nullBits_add D
  obtain ⟨k, hk, hindex⟩ := permutes_bitrevCc.permuted_surj (D := D) (i := ((x + 3 * nullBits D) / 3).toNat) (by omega)
  refine ⟨k, hk, ⟨((x + 3 * nullBits D) % 3).toNat, by omega⟩, ?_⟩
  rw [position, hindex]
  simp only
  omega

/-- The cells of one turn as the loops compute them. -/
theorem position_eq (D k : ℕ) :
    ((3 * bitrevCc.getD (k / rows D) 0 + 96 * (k % rows D) : ℕ) : ℤ) - (nullBits D * 3 : ℕ) = position D k 0 ∧
      position D k 1 = position D k 0 + 1 ∧ position D k 2 = position D k 0 + 2 := by
  simp only [position, permuted]
  omega

theorem cell_zero (D k : ℕ) : k = cell D k 0 ∧ kPi D + k = cell D k 1 ∧ (kPi D <<< 1) + k = cell D k 2 := by
  simp [cell, Nat.shiftLeft_eq, Nat.mul_comm]

theorem interleaving_eq (d : ℤ → β) (w : ℕ → β) :
    (subBlockInterleavingCc D d w).1 = turns (kPi D) (put (cell D) fun k j ↦ d (position D k j)) w := by
  rw [subBlockInterleavingCc, columnWise_eq, ← kPi_eq]
  refine turns_congr (fun k _ ↦ funext fun w ↦ ?_) w
  obtain ⟨hp₀, hp₁, hp₂⟩ := position_eq D k
  obtain ⟨hc₀, hc₁, hc₂⟩ := cell_zero D k
  simp only [put, hp₀, hp₁, hp₂, hc₁, hc₂]
  rw [← hc₀]

theorem deinterleaving_eq (d : ℤ → β) (w : ℕ → β) :
    subBlockDeinterleavingCc D d w = turns (kPi D) (put (position D) fun k j ↦ w (cell D k j)) d := by
  rw [subBlockDeinterleavingCc, columnWise_eq, ← kPi_eq]
  refine turns_congr (fun k _ ↦ funext fun w ↦ ?_) d
  obtain ⟨hp₀, hp₁, hp₂⟩ := position_eq D k
  obtain ⟨hc₀, hc₁, hc₂⟩ := cell_zero D k
  simp only [put, hp₀, hp₁, hp₂, hc₁, hc₂]
  rw [← hc₀]

/-- The interleaver moves the cells of `d`. -/
theorem interleaving_cell (hk : k < kPi D) : (subBlockInterleavingCc D d w).1 (cell D k j) = d (position D k j) := by
  rw [interleaving_eq]
  exact turns_put (fun _ h _ h' _ _ ↦ cell_inj h h') hk j

/-- The deinterleaver moves them back. -/
theorem deinterleaving_position (hk : k < kPi D) : subBlockDeinterleavingCc D d w (position D k j) = w (cell D k j) := by
  rw [deinterleaving_eq]
  exact turns_put (fun _ h _ h' _ _ ↦ position_inj h h') hk j

theorem generateDummyWCc_eq (D : ℕ) (w : ℕ → UInt8) :
    (generateDummyWCc D w).1 = turns 32 (fun col w ↦
      if bitrevCc.getD col 0 < nullBits D then put (cell D) (fun _ _ ↦ lteNull) (rows D * col) w else w) w := by
  simp only [generateDummyWCc]
  rw [foldl_counter 32 (rows D) fun k col w ↦ if bitrevCc.getD col 0 < nullBits D then
    update (update (update w k lteNull) (kPi D + k) lteNull) ((kPi D <<< 1) + k) lteNull else w]
  refine turns_congr (fun col _ ↦ funext fun w ↦ ?_) w
  obtain ⟨hc₀, hc₁, hc₂⟩ := cell_zero D (rows D * col)
  simp only [put, hc₁, hc₂]
  rw [← hc₀]

/-- Which cells hold dummy bits. -/
theorem dummy_cell (hk : k < kPi D) :
    (generateDummyWCc D fun _ ↦ 0).1 (cell D k j) = lteNull ↔ permuted bitrevCc D k < nullBits D := by
  have hrows := Permutes.rows_pos hk
  have hnull := nullBits_lt D
  let mark (col x : ℕ) : Prop := bitrevCc.getD col 0 < nullBits D ∧ ∃ j, x = cell D (rows D * col) j
  have hmarked : (∃ col < 32, mark col (cell D k j)) ↔ permuted bitrevCc D k < nullBits D := by
    constructor
    · rintro ⟨col, hcol, hlt, j', hcell⟩
      have hturn : rows D * col < kPi D := by
        rw [kPi_eq, Nat.mul_comm]
        exact Nat.mul_lt_mul_of_pos_right hcol hrows
      obtain ⟨rfl, -⟩ := cell_inj hk hturn hcell
      simpa [permuted, Nat.mul_div_cancel_left col hrows] using hlt
    · intro hlt
      have hrow : k % rows D = 0 := by
        have hperm := permutes_bitrevCc.permuted_div hk
        omega
      refine ⟨k / rows D, Permutes.column_lt hk, ?_, j, ?_⟩
      · simpa [permuted, hrow] using hlt
      · rw [Nat.mul_div_cancel' (Nat.dvd_of_mod_eq_zero hrow)]
  have hmarks : Marks mark lteNull fun col w ↦
      if bitrevCc.getD col 0 < nullBits D then put (cell D) (fun _ _ ↦ lteNull) (rows D * col) w else w := by
    constructor
    · intro col w x hx
      rw [if_pos hx.1, put_const hx.2]
    · intro col w x hx
      split_ifs with hlt
      · exact put_other fun j hj ↦ hx ⟨hlt, j, hj⟩
      · rfl
  rw [generateDummyWCc_eq, hmarks.turns_eq_iff (by decide), hmarked]

end SubBlockCc

end EdgeSlice.Coding

namespace EdgeSlice.Coding

open Function CountedLoop

variable {σ : Type*}

/-- `ind`, set back at the end of the circular buffer. -/
def wrap (kw ind : ℕ) : ℕ := if ind = kw then 0 else ind

/-- The loop that skips `LTE_NULL`, which never ends if it has gone round the buffer without finding anything else. -/
def skipNull (w : ℕ → UInt8) (kw : ℕ) : ℕ → ℕ → Option ℕ
  | 0, _ => none
  | fuel + 1, ind => if w ind = lteNull then skipNull w kw fuel (wrap kw (ind + 1)) else some ind

/-- The loop of `lte_rate_matching_cc` and `lte_rate_matching_cc_rx` over `k`, with what is done for `k` and `ind`. -/
def selectCc (w : ℕ → UInt8) (kw E : ℕ) (act : ℕ → ℕ → σ → σ) (s : σ) : Option (ℕ × σ) :=
  (List.range E).foldlM (fun (ind, s) k ↦
    (skipNull w kw (kw + 1) ind).map fun ind ↦ (wrap kw (ind + 1), act k ind s)) (0, s)

/-- `lte_rate_matching_cc`, with `e` and the value of `ind` for each `k`; `none` if it does not end. -/
def lteRateMatchingCc (RCC E : ℕ) (w e : ℕ → UInt8) : Option ((ℕ → UInt8) × (ℕ → ℕ)) :=
  let kw := 3 * (RCC <<< 5) % 2 ^ 16
  (selectCc w kw E (putBit w) (e, fun _ ↦ 0)).map Prod.snd

/-- The values of `w` behind the rescaling. -/
def rescale (x : ℤ) : ℤ := if x > 7 then 7 else if x < -8 then -8 else x

/-- `lte_rate_matching_cc_rx`, with `w` and the value of `ind` for each `k`; `none` if it does not end. -/
def lteRateMatchingCcRx (RCC E : ℕ) (w : ℕ → ℤ) (dummyW : ℕ → UInt8) (softInput : ℕ → ℤ) :
    Option ((ℕ → ℤ) × (ℕ → ℕ)) :=
  let kw := 3 * (RCC <<< 5) % 2 ^ 16
  let w := turns kw (fun ind w ↦ update w ind 0) w
  (selectCc dummyW kw E (addSoft softInput) (fun _ ↦ 0, fun _ ↦ 0)).map fun (_, w16, inds) ↦
    (turns kw (fun ind w ↦ update w ind (rescale (w16 ind))) w, inds)

section Select

variable {w w' : ℕ → UInt8} {kw : ℕ}

theorem wrap_lt {ind : ℕ} (h : ind < kw) : wrap kw (ind + 1) < kw := by
  rw [wrap]
  split_ifs with heq <;> omega

theorem skipNull_congr (h : ∀ p < kw, w p = lteNull ↔ w' p = lteNull) (fuel : ℕ) {ind : ℕ} (hind : ind < kw) :
    skipNull w kw fuel ind = skipNull w' kw fuel ind := by
  induction fuel generalizing ind with
  | zero => rfl
  | succ fuel ih =>
    simp only [skipNull, h ind hind]
    rw [ih (wrap_lt hind)]

/-- The loop ends at a cell that is not `LTE_NULL`, if there is one. -/
theorem skipNull_of_exists {p : ℕ} (hp : p < kw) (hw : w p ≠ lteNull) {ind : ℕ} (hind : ind < kw) :
    ∃ r < kw, skipNull w kw (kw + 1) ind = some r ∧ w r ≠ lteNull := by
  have hreach (fuel : ℕ) {ind : ℕ} (hind : ind < kw) (hfuel : (if ind ≤ p then p - ind else kw + p - ind) < fuel) :
      ∃ r < kw, skipNull w kw fuel ind = some r ∧ w r ≠ lteNull := by
    induction fuel generalizing ind with
    | zero => exact absurd hfuel (Nat.not_lt_zero _)
    | succ fuel ih =>
      by_cases hnull : w ind = lteNull
      · have hne : ind ≠ p := fun heq ↦ hw (heq ▸ hnull)
        rw [skipNull, if_pos hnull]
        refine ih (wrap_lt hind) ?_
        rw [wrap]
        split_ifs at hfuel ⊢ <;> omega
      · exact ⟨ind, hind, by rw [skipNull, if_neg hnull], hnull⟩
  refine hreach (kw + 1) hind ?_
  split_ifs <;> omega

theorem selectCc_succ (w : ℕ → UInt8) (kw E : ℕ) (act : ℕ → ℕ → σ → σ) (s : σ) :
    selectCc w kw (E + 1) act s = (selectCc w kw E act s).bind fun (ind, s) ↦
      (skipNull w kw (kw + 1) ind).map fun ind ↦ (wrap kw (ind + 1), act E ind s) := by
  simp [selectCc, List.range_succ, List.foldlM_append]

/-- What the loops do with a buffer depends only on where it has `LTE_NULL`. -/
theorem selectCc_congr (h : ∀ p < kw, w p = lteNull ↔ w' p = lteNull) {p : ℕ} (hp : p < kw) (hw : w p ≠ lteNull) (E : ℕ) :
    ∃ (inds : ℕ → ℕ) (ind : ℕ), ind < kw ∧ (∀ k < E, inds k < kw ∧ w (inds k) ≠ lteNull) ∧
      (∀ (σ : Type) act (s : σ), selectCc w kw E act s = some (ind, turns E (fun k ↦ act k (inds k)) s)) ∧
      ∀ (σ : Type) act (s : σ), selectCc w' kw E act s = some (ind, turns E (fun k ↦ act k (inds k)) s) := by
  induction E with
  | zero => exact ⟨fun _ ↦ 0, 0, by omega, fun k hk ↦ absurd hk (Nat.not_lt_zero k), fun _ _ _ ↦ rfl, fun _ _ _ ↦ rfl⟩
  | succ E ih =>
    obtain ⟨inds, ind, hind, hinds, hsel, hsel'⟩ := ih
    obtain ⟨r, hr, hskip, hnull⟩ := skipNull_of_exists hp hw hind
    have hskip' : skipNull w' kw (kw + 1) ind = some r := (skipNull_congr h _ hind).symm.trans hskip
    have hturns (σ : Type) (act : ℕ → ℕ → σ → σ) (s : σ) :
        act E r (turns E (fun k ↦ act k (inds k)) s) = turns (E + 1) (fun k ↦ act k (update inds E r k)) s := by
      rw [turns_succ, update_self]
      congr 1
      exact turns_congr (fun k hk ↦ by rw [update_of_ne hk.ne]) s
    refine ⟨update inds E r, wrap kw (r + 1), wrap_lt hr, fun k hk ↦ ?_, fun σ act s ↦ ?_, fun σ act s ↦ ?_⟩
    · rcases Nat.lt_succ_iff_lt_or_eq.mp hk with hlt | rfl
      · rw [update_of_ne hlt.ne]
        exact hinds k hlt
      · rw [update_self]
        exact ⟨hr, hnull⟩
    · simp only [selectCc_succ, hsel, Option.bind_some, hskip, Option.map_some, hturns]
    · simp only [selectCc_succ, hsel', Option.bind_some, hskip', Option.map_some, hturns]

end Select

/-- A codeword behind its dummy bits. -/
structure CodewordCc (D : ℕ) (d : ℤ → UInt8) : Prop where
  null : ∀ x, -(3 * nullBits D : ℤ) ≤ x → x < 0 → d x = lteNull
  bits : ∀ x : ℤ, 0 ≤ x → x < 3 * D → d x = 0 ∨ d x = 1

/-- The cell of `d` that each cell of `w` has been read from. -/
def origins (D : ℕ) : ℕ → ℤ := (subBlockInterleavingCc D id fun _ ↦ 0).1

/-- The sum of the soft inputs that carry the bit `x`. -/
def carried (D E : ℕ) (inds : ℕ → ℕ) (softInput : ℕ → ℤ) (x : ℤ) : ℤ :=
  ∑ k ∈ Finset.range E with origins D (inds k) = x, softInput k

section RoundTrip

open SubBlockCc

variable {D E : ℕ} {d : ℤ → UInt8}

theorem CodewordCc.null_iff (hd : CodewordCc D d) {k : ℕ} (hk : k < kPi D) (j : Fin 3) :
    d (position D k j) = lteNull ↔ permuted bitrevCc D k < nullBits D := by
  have hperm := permutes_bitrevCc.permuted_lt hk
  have hsum := nullBits_add D
  constructor
  · intro hnull
    by_contra hge
    have hbit := hd.bits (position D k j) (by rw [position]; omega) (by rw [position]; omega)
    rw [hnull] at hbit
    exact absurd hbit (by decide)
  · intro hlt
    exact hd.null _ (by rw [position]; omega) (by rw [position]; omega)

/-- Transmitter and receiver skip the same cells. -/
theorem CodewordCc.same_nulls (hd : CodewordCc D d) (w : ℕ → UInt8) {p : ℕ} (hp : p < 3 * kPi D) :
    (subBlockInterleavingCc D d w).1 p = lteNull ↔ (generateDummyWCc D fun _ ↦ 0).1 p = lteNull := by
  obtain ⟨k, hk, j, rfl⟩ := exists_cell hp
  rw [interleaving_cell hk, hd.null_iff hk, dummy_cell hk]

theorem origins_inj {p q : ℕ} (hp : p < 3 * kPi D) (hq : q < 3 * kPi D) (h : origins D p = origins D q) : p = q := by
  obtain ⟨k, hk, j, rfl⟩ := exists_cell hp
  obtain ⟨k', hk', j', rfl⟩ := exists_cell hq
  rw [origins, interleaving_cell hk, interleaving_cell hk'] at h
  obtain ⟨rfl, rfl⟩ := position_inj hk hk' h
  rfl

theorem exists_bit (hD : 1 ≤ D) (hd : CodewordCc D d) (w : ℕ → UInt8) :
    ∃ p < 3 * kPi D, (subBlockInterleavingCc D d w).1 p ≠ lteNull := by
  obtain ⟨k, hk, j, hx⟩ := exists_position (D := D) (x := 0) (by omega) (by omega)
  refine ⟨cell D k j, cell_lt hk j, ?_⟩
  rw [interleaving_cell hk, ← hx]
  rcases hd.bits 0 le_rfl (by omega) with h | h
  · simp [h, lteNull]
  · simp [h, lteNull]

/-- Rate matching is undone: both sides go through the same cells, and behind the deinterleaver each bit is what has
been received for it. -/
theorem rateMatchingCc_roundTrip (hD : 1 ≤ D) (hKw : 96 * ((D + 31) / 32) < 2 ^ 16) (hd : CodewordCc D d)
    (w e : ℕ → UInt8) (w' : ℕ → ℤ) (d' : ℤ → ℤ) (softInput : ℕ → ℤ) :
    let tx := subBlockInterleavingCc D d w
    let rx := generateDummyWCc D fun _ ↦ 0
    (∀ p < 3 * kPi D, tx.1 p = lteNull ↔ rx.1 p = lteNull) ∧
      ∃ eTx wRx inds, lteRateMatchingCc tx.2 E tx.1 e = some (eTx, inds) ∧
        lteRateMatchingCcRx rx.2 E w' rx.1 softInput = some (wRx, inds) ∧
        (∀ k < E, eTx k = d (origins D (inds k))) ∧
        ∀ x : ℤ, 0 ≤ x → x < 3 * D → |carried D E inds softInput x| < 2 ^ 15 →
          subBlockDeinterleavingCc D d' wRx x = rescale (carried D E inds softInput x) := by
  have hkw : 3 * (rows D <<< 5) % 2 ^ 16 = 3 * kPi D := by
    rw [← kPi, kPi_eq, rows_eq]
    omega
  obtain ⟨p, hp, hbit⟩ := exists_bit hD hd w
  have hnulls := fun p hp ↦ hd.same_nulls w (p := p) hp
  obtain ⟨inds, ind, -, hinds, htx, hrx⟩ := selectCc_congr hnulls hp hbit E
  have hrcc : (subBlockInterleavingCc D d w).2 = rows D := rfl
  have hrcc' : (generateDummyWCc D fun _ ↦ 0).2 = rows D := rfl
  simp only [hrcc, hrcc']
  refine ⟨hnulls, ?_⟩
  have hsent : lteRateMatchingCc (rows D) E (subBlockInterleavingCc D d w).1 e =
      some (turns E (fun k e ↦ update e k ((subBlockInterleavingCc D d w).1 (inds k))) e, used inds E) := by
    rw [lteRateMatchingCc, hkw, htx, turns_putBit, Option.map_some]
  have hgot : lteRateMatchingCcRx (rows D) E w' (generateDummyWCc D fun _ ↦ 0).1 softInput =
      some (turns (3 * kPi D) (fun ind w ↦ update w ind (rescale (combined softInput inds E ind)))
        (turns (3 * kPi D) (fun ind w ↦ update w ind 0) w'), used inds E) := by
    rw [lteRateMatchingCcRx, hkw, hrx, turns_addSoft, Option.map_some]
  refine ⟨_, _, _, hsent, hgot, fun k hk ↦ ?_, fun x hx hx' hsum ↦ ?_⟩
  · obtain ⟨k', hk', j, hcell⟩ := exists_cell (hinds k hk).1
    rw [turns_update, if_pos hk, used_eq hk, hcell, origins, interleaving_cell hk', interleaving_cell hk', id]
  · obtain ⟨k, hk, j, rfl⟩ := exists_position (by omega) hx'
    rw [deinterleaving_position hk, turns_update, if_pos (cell_lt hk j), combined_eq]
    have hsame : (∑ k' ∈ Finset.range E with inds k' = cell D k j, softInput k') =
        carried D E (used inds E) softInput (position D k j) := by
      refine Finset.sum_congr (Finset.filter_congr fun k' hk' ↦ ?_) fun _ _ ↦ rfl
      have hlt := Finset.mem_range.mp hk'
      have horigin : origins D (cell D k j) = position D k j := by rw [origins, interleaving_cell hk, id]
      rw [used_eq hlt, ← horigin]
      exact ⟨fun h ↦ by rw [h], origins_inj (hinds k' hlt).1 (cell_lt hk j)⟩
    rw [hsame, Int.bmod_eq_of_le (by have := abs_lt.mp hsum; omega) (by have := abs_lt.mp hsum; omega)]

/-- The codeword 0…0. -/
def zeros (x : ℤ) : UInt8 := if x < 0 then lteNull else 0

theorem codewordCc_zeros (D : ℕ) : CodewordCc D zeros where
  null _ _ hx := if_pos hx
  bits _ hx _ := .inl (if_neg hx.not_gt)

/-- 44 bits that are sent in 288 soft inputs. -/
theorem rateMatchingCc_zeros :
    ∃ wRx inds, lteRateMatchingCcRx (rows 44) 288 (fun _ ↦ 0) (generateDummyWCc 44 fun _ ↦ 0).1 (fun _ ↦ 3) =
        some (wRx, inds) ∧
      ∀ x : ℤ, 0 ≤ x → x < 132 → |carried 44 288 inds (fun _ ↦ 3) x| < 2 ^ 15 →
        subBlockDeinterleavingCc 44 (fun _ ↦ 0) wRx x = rescale (carried 44 288 inds (fun _ ↦ 3) x) := by
  obtain ⟨-, -, wRx, inds, -, hrx, -, hbits⟩ := rateMatchingCc_roundTrip (D := 44) (E := 288) (by decide) (by decide)
    (codewordCc_zeros 44) (fun _ ↦ 0) (fun _ ↦ 0) (fun _ ↦ 0) (fun _ ↦ 0) (fun _ ↦ 3)
  exact ⟨wRx, inds, hrx, hbits⟩

end RoundTrip

end EdgeSlice.Coding
