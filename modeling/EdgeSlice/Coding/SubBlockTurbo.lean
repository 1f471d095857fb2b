import EdgeSlice.Coding.SubBlock

namespace EdgeSlice.Coding

open Function CountedLoop

variable {β : Type*}

/-- `sub_block_interleaving_turbo`, with `d` from the dummy bits on, which have negative indices. -/
def subBlockInterleavingTurbo (null : β) (D : ℕ) (d : ℤ → β) (w : ℕ → β) : (ℕ → β) × ℕ :=
  let nd3 := nullBits D * 3
  let d := update d (3 * D + 2) (d 2)
  let w := columnWise 32 (rows D) 96 (fun col ↦ bitrevX3.getD col 0) (fun k index3 w ↦
    let k2 := 2 * k
    update (update (update w k (d ((index3 : ℤ) - nd3))) (kPi D + k2) (d ((index3 : ℤ) - nd3 + 1)))
      (kPi D + 1 + k2) (d ((index3 : ℤ) - nd3 + 5))) w
  (if 0 < nullBits D then update w (3 * kPi D - 1) null else w, rows D)

/-- `sub_block_deinterleaving_turbo` -/
def subBlockDeinterleavingTurbo (D : ℕ) (d : ℤ → β) (w : ℕ → β) : ℤ → β :=
  let nd3 := nullBits D * 3
  columnWise 32 (rows D) 96 (fun col ↦ bitrevX3.getD col 0) (fun k index3 d ↦
    let k2 := 2 * k
    update (update (update d ((index3 : ℤ) - nd3) (w k)) ((index3 : ℤ) - nd3 + 1) (w (kPi D + k2)))
      ((index3 : ℤ) - nd3 + 5) (w (kPi D + 1 + k2))) d

/-- What `generate_dummy_w` writes for a column, whose first cell is `k`. -/
def dummyColumn (D F k col : ℕ) (w : ℕ → UInt8) : ℕ → UInt8 :=
  let index := bitrev.getD col 0
  let k2 := k <<< 1
  let w := if index < nullBits D + F then update (update w k lteNull) (kPi D + k2) lteNull else w
  let w :=
    if index + 32 < nullBits D + F then update (update w (k + 1) lteNull) (kPi D + 2 + k2) lteNull else w
  let w :=
    if index + 64 < nullBits D + F then update (update w (k + 2) lteNull) (kPi D + 4 + k2) lteNull else w
  if index + 1 < nullBits D then update w (kPi D + 1 + k2) lteNull else w

/-- `generate_dummy_w` -/
def generateDummyW (D : ℕ) (w : ℕ → UInt8) (F : ℕ) : (ℕ → UInt8) × ℕ :=
  let (w, _) := (List.range 32).foldl (fun (w, k) col ↦ (dummyColumn D F k col w, k + rows D)) (w, 0)
  (if 0 < nullBits D then update w (3 * kPi D - 1) lteNull else w, rows D)

theorem bitrevX3_eq : ∀ c < 32, bitrevX3.getD c 0 = 3 * bitrev.getD c 0 := by decide

namespace SubBlockTurbo

variable {D F k k' : ℕ} {d : ℤ → β} {w : ℕ → β} {j j' : Fin 3}

/-- The cell of `w` that the stream `j` is written to in turn `k`. -/
def cell (D k : ℕ) : Fin 3 → ℕ
  | 0 => k
  | 1 => kPi D + 2 * k
  | 2 => kPi D + 1 + 2 * k

/-- The cell of `d` that is read for it, before the one behind the codeword is filled. -/
def position (D k : ℕ) : Fin 3 → ℤ
  | 0 => 3 * ((permuted bitrev D k : ℤ) - nullBits D)
  | 1 => 3 * ((permuted bitrev D k : ℤ) - nullBits D) + 1
  | 2 => 3 * ((permuted bitrev D k : ℤ) - nullBits D) + 5

theorem cell_inj (hk : k < kPi D) (hk' : k' < kPi D) (h : cell D k j = cell D k' j') : k = k' ∧ j = j' := by
  match j, j' with
  | 0, 0 | 1, 1 | 2, 2 => simp only [cell] at h; exact ⟨by omega, rfl⟩
  | 0, 1 | 0, 2 | 1, 0 | 1, 2 | 2, 0 | 2, 1 => simp only [cell] at h; omega

theorem cell_lt (hk : k < kPi D) (j : Fin 3) : cell D k j < 3 * kPi D := by
  match j with
  | 0 | 1 | 2 => simp only [cell]; omega

theorem exists_cell {p : ℕ} (hp : p < 3 * kPi D) : ∃ k < kPi D, ∃ j, p = cell D k j := by
  by_cases hfirst : p < kPi D
  · exact ⟨p, hfirst, 0, rfl⟩
  · refine ⟨(p - kPi D) / 2, by omega, ?_⟩
    by_cases heven : (p - kPi D) % 2 = 0
    · exact ⟨1, by simp only [cell]; omega⟩
    · exact ⟨2, by simp only [cell]; omega⟩

theorem position_inj (hk : k < kPi D) (hk' : k' < kPi D) (h : position D k j = position D k' j') :
    k = k' ∧ j = j' := by
  have hsame (heq : permuted bitrev D k = permuted bitrev D k') : k = k' := permutes_bitrev.permuted_inj hk hk' heq
  match j, j' with
  | 0, 0 | 1, 1 | 2, 2 => simp only [position] at h; exact ⟨hsame (by omega), rfl⟩
  | 0, 1 | 0, 2 | 1, 0 | 1, 2 | 2, 0 | 2, 1 => simp only [position] at h; omega

theorem permuted_last (hpos : 0 < kPi D) : permuted bitrev D (kPi D - 1) = kPi D - 1 := by
  have hrows : 0 < rows D := by
    rw [kPi_eq] at hpos
    omega
  have hsplit : kPi D - 1 = rows D * 31 + (rows D - 1) := by
    rw [kPi_eq]
    omega
  have hdiv : (kPi D - 1) / rows D = 31 := by
    rw [hsplit, Nat.mul_add_div hrows, Nat.div_eq_of_lt (by omega)]
  have hmod : (kPi D - 1) % rows D = rows D - 1 := by
    rw [hsplit, Nat.mul_add_mod, Nat.mod_eq_of_lt (by omega)]
  rw [permuted, hdiv, hmod]
  simp only [bitrev, List.getD_cons_succ, List.getD_cons_zero]
  omega

/-- The last cell is read from behind the codeword. -/
theorem position_eq_last_iff (hk : k < kPi D) : position D k j = 3 * D + 2 ↔ cell D k j = 3 * kPi D - 1 := by
  have hsum := nullBits_add D
  have hlast := permuted_last (Nat.zero_lt_of_lt hk)
  match j with
  | 0 | 1 => simp only [position, cell]; omega
  | 2 =>
    constructor
    · intro h
      simp only [position] at h
      have heq : k = kPi D - 1 := permutes_bitrev.permuted_inj hk (by omega) (by omega)
      simp only [cell]
      omega
    · intro h
      simp only [cell] at h
      obtain rfl : k = kPi D - 1 := by omega
      simp only [position]
      omega

theorem exists_position (hnull : 0 < nullBits D) {x : ℤ} (hx : 0 ≤ x) (hx' : x < 3 * D) :
    ∃ k < kPi D, ∃ j, x = position D k j := by
  have hsum := nullBits_add D
  by_cases hlast : x % 3 = 2
  · obtain ⟨k, hk, hindex⟩ := permutes_bitrev.permuted_surj (D := D) (i := (x / 3).toNat + nullBits D - 1) (by omega)
    exact ⟨k, hk, 2, by simp only [position, hindex]; omega⟩
  · obtain ⟨k, hk, hindex⟩ := permutes_bitrev.permuted_surj (D := D) (i := (x / 3).toNat + nullBits D) (by omega)
    by_cases hzero : x % 3 = 0
    · exact ⟨k, hk, 0, by simp only [position, hindex]; omega⟩
    · exact ⟨k, hk, 1, by simp only [position, hindex]; omega⟩

/-- The cells of one turn as the loops compute them. -/
theorem position_eq (hk : k < kPi D) :
    ((bitrevX3.getD (k / rows D) 0 + 96 * (k % rows D) : ℕ) : ℤ) - (nullBits D * 3 : ℕ) = position D k 0 ∧
      position D k 1 = position D k 0 + 1 ∧ position D k 2 = position D k 0 + 5 := by
  rw [bitrevX3_eq _ (Permutes.column_lt hk)]
  simp only [position, permuted, and_self, and_true]
  omega

theorem deinterleaving_eq (d : ℤ → β) (w : ℕ → β) :
    subBlockDeinterleavingTurbo D d w = turns (kPi D) (put (position D) fun k j ↦ w (cell D k j)) d := by
  rw [subBlockDeinterleavingTurbo, columnWise_eq, ← kPi_eq]
  refine turns_congr (fun k hk ↦ funext fun d ↦ ?_) d
  obtain ⟨hp₀, hp₁, hp₂⟩ := position_eq hk
  simp only [put, hp₀, hp₁, hp₂]
  rfl

theorem interleaving_eq (null : β) (d : ℤ → β) (w : ℕ → β) :
    (subBlockInterleavingTurbo null D d w).1 =
      let w := turns (kPi D) (put (cell D) fun k j ↦ update d (3 * D + 2) (d 2) (position D k j)) w
      if 0 < nullBits D then update w (3 * kPi D - 1) null else w := by
  have hloop : columnWise 32 (rows D) 96 (fun col ↦ bitrevX3.getD col 0) (fun k index3 w ↦
      update (update (update w k (update d (3 * D + 2) (d 2) ((index3 : ℤ) - (nullBits D * 3 : ℕ)))) (kPi D + 2 * k)
        (update d (3 * D + 2) (d 2) ((index3 : ℤ) - (nullBits D * 3 : ℕ) + 1)))
        (kPi D + 1 + 2 * k) (update d (3 * D + 2) (d 2) ((index3 : ℤ) - (nullBits D * 3 : ℕ) + 5))) w =
      turns (kPi D) (put (cell D) fun k j ↦ update d (3 * D + 2) (d 2) (position D k j)) w := by
    rw [columnWise_eq, ← kPi_eq]
    refine turns_congr (fun k hk ↦ funext fun w ↦ ?_) w
    obtain ⟨hp₀, hp₁, hp₂⟩ := position_eq hk
    simp only [put, hp₀, hp₁, hp₂]
    rfl
  simp only [subBlockInterleavingTurbo]
  rw [hloop]

/-- The interleaver moves the cells of `d`; the last one gets a dummy bit. -/
theorem interleaving_cell (null : β) (hnull : 0 < nullBits D) (hk : k < kPi D) :
    (subBlockInterleavingTurbo null D d w).1 (cell D k j) =
      if cell D k j = 3 * kPi D - 1 then null else d (position D k j) := by
  rw [interleaving_eq]
  simp only [if_pos hnull, update_apply]
  split_ifs with hlast
  · rfl
  · rw [turns_put (fun _ h _ h' _ _ ↦ cell_inj h h') hk j, if_neg fun h ↦ hlast ((position_eq_last_iff hk).mp h)]

/-- The deinterleaver moves them back. -/
theorem deinterleaving_position (hk : k < kPi D) :
    subBlockDeinterleavingTurbo D d w (position D k j) = w (cell D k j) := by
  rw [deinterleaving_eq]
  exact turns_put (fun _ h _ h' _ _ ↦ position_inj h h') hk j

/-- What `generate_dummy_w` marks for a column: systematic bits and first parity bits in up to three rows, and a second
parity bit. -/
def Marked (D F col x : ℕ) : Prop :=
  (∃ r < 3, bitrev.getD col 0 + 32 * r < nullBits D + F ∧ ∃ j ≠ Fin.last 2, x = cell D (rows D * col + r) j) ∨
    bitrev.getD col 0 + 1 < nullBits D ∧ x = cell D (rows D * col) (Fin.last 2)

theorem cell_last (D k : ℕ) : cell D k (Fin.last 2) = kPi D + 1 + 2 * k := rfl

theorem exists_stream {p : Fin 3 → Prop} : (∃ j ≠ Fin.last 2, p j) ↔ p 0 ∨ p 1 := by
  constructor
  · rintro ⟨j, hj, hp⟩
    match j with
    | 0 => exact .inl hp
    | 1 => exact .inr hp
    | 2 => exact absurd rfl hj
  · rintro (hp | hp)
    · exact ⟨0, by decide, hp⟩
    · exact ⟨1, by decide, hp⟩

theorem exists_row {p : ℕ → Prop} : (∃ r < 3, p r) ↔ p 0 ∨ p 1 ∨ p 2 := by
  constructor
  · rintro ⟨r, hr, hp⟩
    obtain rfl | rfl | rfl : r = 0 ∨ r = 1 ∨ r = 2 := by omega
    · exact .inl hp
    · exact .inr (.inl hp)
    · exact .inr (.inr hp)
  · rintro (hp | hp | hp)
    · exact ⟨0, by decide, hp⟩
    · exact ⟨1, by decide, hp⟩
    · exact ⟨2, by decide, hp⟩

theorem marks_dummyColumn (D F : ℕ) :
    Marks (Marked D F) lteNull fun col ↦ dummyColumn D F (rows D * col) col := by
  have hvalue (col : ℕ) (w : ℕ → UInt8) (x : ℕ) :
      dummyColumn D F (rows D * col) col w x = lteNull ∧ Marked D F col x ∨
        dummyColumn D F (rows D * col) col w x = w x ∧ ¬ Marked D F col x := by
    simp only [Marked, exists_stream, exists_row, cell_last]
    simp only [dummyColumn, update_if_apply, update_update_if_apply, cell, Nat.shiftLeft_eq]
    generalize rows D * col = k
    split_ifs with h₃ h₂ h₁ h₀
    · exact .inl ⟨rfl, by omega⟩
    · exact .inl ⟨rfl, by omega⟩
    · exact .inl ⟨rfl, by omega⟩
    · exact .inl ⟨rfl, by omega⟩
    · exact .inr ⟨rfl, by omega⟩
  constructor
  · intro col w x hx
    rcases hvalue col w x with h | h
    · exact h.1
    · exact absurd hx h.2
  · intro col w x hx
    rcases hvalue col w x with h | h
    · exact absurd h.2 hx
    · exact h.1

/-- The cell of a turn that comes from a filler bit or from a dummy bit. -/
def Nulled (D F k : ℕ) (j : Fin 3) : Prop :=
  j ≠ Fin.last 2 ∧ permuted bitrev D k < nullBits D + F ∨ j = Fin.last 2 ∧ permuted bitrev D k + 1 < nullBits D

theorem exists_marked_iff (hF : F ≤ D) (hrows : nullBits D + F ≤ 96) (hk : k < kPi D) :
    (∃ col < 32, Marked D F col (cell D k j)) ↔ Nulled D F k j := by
  have hpos := Permutes.rows_pos hk
  have hsum := nullBits_add D
  have hnull := nullBits_lt D
  have hturn {col r : ℕ} (hcol : col < 32) (hr : bitrev.getD col 0 + 32 * r < kPi D) :
      rows D * col + r < kPi D ∧ permuted bitrev D (rows D * col + r) = bitrev.getD col 0 + 32 * r := by
    have hlt : r < rows D := by
      rw [kPi_eq] at hr
      omega
    have hdiv : (rows D * col + r) / rows D = col := by
      rw [Nat.mul_add_div hpos, Nat.div_eq_of_lt hlt, Nat.add_zero]
    have hmod : (rows D * col + r) % rows D = r := by rw [Nat.mul_add_mod, Nat.mod_eq_of_lt hlt]
    refine ⟨?_, by rw [permuted, hdiv, hmod]⟩
    rw [kPi_eq]
    calc rows D * col + r < rows D * (col + 1) := by rw [Nat.mul_succ]; exact Nat.add_lt_add_left hlt _
      _ ≤ 32 * rows D := by rw [Nat.mul_comm]; exact Nat.mul_le_mul_right _ hcol
  constructor
  · rintro ⟨col, hcol, ⟨r, -, hlt, j', hj', hcell⟩ | ⟨hlt, hcell⟩⟩
    · obtain ⟨hturn, hperm⟩ := hturn hcol (hlt.trans_le (by omega))
      obtain ⟨rfl, rfl⟩ := cell_inj hk hturn hcell
      exact .inl ⟨hj', hperm ▸ hlt⟩
    · obtain ⟨hturn, hperm⟩ := hturn (r := 0) hcol (by omega)
      obtain ⟨rfl, rfl⟩ := cell_inj hk hturn hcell
      rw [Nat.add_zero, Nat.mul_zero, Nat.add_zero] at hperm
      exact .inr ⟨rfl, hperm ▸ hlt⟩
  · have hdiv := permutes_bitrev.permuted_div hk
    have hsplit : k = rows D * (k / rows D) + k % rows D := (Nat.div_add_mod k (rows D)).symm
    rintro (⟨hj, hlt⟩ | ⟨rfl, hlt⟩)
    · exact ⟨k / rows D, Permutes.column_lt hk, .inl ⟨k % rows D, by omega, hlt, j, hj, by rw [← hsplit]⟩⟩
    · have hrow : k % rows D = 0 := by omega
      rw [permuted, hrow] at hlt
      exact ⟨k / rows D, Permutes.column_lt hk, .inr ⟨by omega, by rw [hrow] at hsplit; exact congrArg (cell D · 2) hsplit⟩⟩

/-- Which cells are marked in the receiver. -/
theorem dummy_cell (hnull : 0 < nullBits D) (hF : F ≤ D) (hrows : nullBits D + F ≤ 96) (hk : k < kPi D) :
    (generateDummyW D (fun _ ↦ 0) F).1 (cell D k j) = lteNull ↔ cell D k j = 3 * kPi D - 1 ∨ Nulled D F k j := by
  have hloop : (generateDummyW D (fun _ ↦ 0) F).1 =
      update (turns 32 (fun col ↦ dummyColumn D F (rows D * col) col) fun _ ↦ 0) (3 * kPi D - 1) lteNull := by
    simp only [generateDummyW]
    rw [foldl_counter 32 (rows D) (dummyColumn D F), if_pos hnull]
  rw [hloop, update_apply]
  by_cases hlast : cell D k j = 3 * kPi D - 1
  · simp [hlast]
  · simp only [hlast, if_false, false_or]
    rw [(marks_dummyColumn D F).turns_eq_iff (by decide), exists_marked_iff hF hrows hk]

end SubBlockTurbo

end EdgeSlice.Coding
