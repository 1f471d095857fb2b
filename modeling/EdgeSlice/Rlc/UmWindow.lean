import EdgeSlice.ReorderWindow
import EdgeSlice.SequenceSpace
import EdgeSlice.Rlc.UmReassembly
import EdgeSlice.Rlc.UmReordering

namespace EdgeSlice.Rlc

open Function SequenceSpace

namespace UmEntity

/-- The sequence numbers of `k` PDUs from the `n`th on are done with. -/
def reassembleRange : ℕ → ℕ → UmEntity → UmEntity
  | _, 0, r => r
  | n, k + 1, r => reassembleRange (n + 1) k (r.reassembleSn (n % r.rxSnModulo))

/-- How the reassembly goes on over PDUs that are numbered without an end; `P n` holds when all
below the `n`th are done with. -/
structure Rule (M : ℕ) (content : ℕ → Option Bytes → Prop) (P : ℕ → UmEntity → Prop) : Prop where
  missing : ∀ n, content n none
  frame : ∀ n r vrUh darBuffer, P n r → P n { r with vrUh := vrUh, darBuffer := darBuffer }
  step : ∀ n r, r.rxSnModulo = M → P n r → content n (r.darBuffer (n % M)) →
    P (n + 1) (r.reassembleSn (n % M))

/-- The PDUs from the `n`th on that have arrived are in the buffer. -/
structure Ready (M : ℕ) (P : ℕ → UmEntity → Prop) (n : ℕ) (buffer : ℕ → Option Bytes) (r : UmEntity) :
    Prop where
  modulo : r.rxSnModulo = M
  stored : ∀ j, n ≤ j → j < n + M → r.darBuffer (j % M) = buffer j
  above : ∀ j, n + M ≤ j → buffer j = none
  beyond : ∀ sn, M ≤ sn → r.darBuffer sn = none
  reassembled : P n r

variable {M n k : ℕ} {content : ℕ → Option Bytes → Prop} {P : ℕ → UmEntity → Prop}
  {buffer : ℕ → Option Bytes} {r : UmEntity}

theorem reassembleRange_window (n k : ℕ) (r : UmEntity) :
    (reassembleRange n k r).vrUh = r.vrUh ∧ (reassembleRange n k r).rxSnModulo = r.rxSnModulo ∧
      (reassembleRange n k r).rxSnLength = r.rxSnLength := by
  induction k generalizing n r with
  | zero => exact ⟨rfl, rfl, rfl⟩
  | succ k ih =>
    obtain ⟨hhigh, hmodulo, hlength, -⟩ := reassembleSn_window (n % r.rxSnModulo) r
    obtain ⟨hhigh', hmodulo', hlength'⟩ := ih (n + 1) (r.reassembleSn (n % r.rxSnModulo))
    exact ⟨hhigh'.trans hhigh, hmodulo'.trans hmodulo, hlength'.trans hlength⟩

namespace Ready

theorem step (hrule : Rule M content P) (hcontent : ∀ j, content j (buffer j)) (hM : 0 < M)
    (h : Ready M P n buffer r) : Ready M P (n + 1) buffer (r.reassembleSn (n % M)) := by
  obtain ⟨-, hmodulo, -, hbuffer⟩ := reassembleSn_window (n % M) r
  refine ⟨hmodulo.trans h.modulo, fun j hj hj' ↦ ?_, fun j hj ↦ h.above j (by omega), fun sn hsn ↦ ?_, ?_⟩
  · rw [hbuffer]
    rcases Nat.lt_or_ge j (n + M) with hlt | hge
    · rw [update_of_ne (mod_ne hj hlt).symm, h.stored j (by omega) hlt]
    · obtain rfl : j = n + M := by omega
      rw [Nat.add_mod_right, update_self, h.above _ (Nat.le_refl _)]
  · have hlt := Nat.mod_lt n hM
    rw [hbuffer, update_of_ne (by omega), h.beyond sn hsn]
  · apply hrule.step n r h.modulo h.reassembled
    rw [h.stored n (Nat.le_refl n) (by omega)]
    exact hcontent n

theorem range (hrule : Rule M content P) (hcontent : ∀ j, content j (buffer j)) (hM : 0 < M)
    (h : Ready M P n buffer r) (k : ℕ) : Ready M P (n + k) buffer (reassembleRange n k r) := by
  induction k generalizing n r with
  | zero => exact h
  | succ k ih =>
    have hnext := ih (h.step hrule hcontent hM)
    rw [Nat.add_assoc, Nat.add_comm 1 k] at hnext
    rw [reassembleRange, h.modulo]
    exact hnext

end Ready

/-- The loop ends at the first number that it has to end at. -/
theorem boundedReassemblyLoop_range {fuel n' high : ℕ} (hmodulo : r.rxSnModulo = M)
    (hhigh : r.vrUh = high % M) (hn : n < n') (hn' : n' < n + M) (hle : n' ≤ high) (hM : high ≤ n + M)
    (hfuel : n' ≤ n + fuel) :
    boundedReassemblyLoop (n' % M : ℕ) fuel (n % M) r = some (reassembleRange n (n' - n) r) := by
  induction fuel generalizing n r with
  | zero => omega
  | succ fuel ih =>
    obtain ⟨hhigh', hmodulo', -, -⟩ := reassembleSn_window (n % M) r
    obtain ⟨k, hk⟩ := Nat.exists_eq_add_of_lt hn
    have hrange : n' - n = k + 1 := by omega
    rw [hrange, reassembleRange, hmodulo, boundedReassemblyLoop]
    simp only [hmodulo', hhigh', hmodulo, hhigh, succ_mod, Int.natCast_inj]
    by_cases hlast : n + 1 = n'
    · obtain rfl : k = 0 := by omega
      rw [if_pos (Or.inr (by rw [hlast]))]
      rfl
    · have hend : (n + 1) % M ≠ n' % M := mod_ne (by omega) (by omega)
      have htop : (n + 1) % M ≠ high % M := mod_ne (by omega) (by omega)
      rw [if_neg (not_or.mpr ⟨htop, hend⟩), ih (hmodulo'.trans hmodulo) (hhigh'.trans hhigh) (by omega)
        (by omega) (by omega) (by omega)]
      have hk' : n' - (n + 1) = k := by omega
      rw [hk']

theorem boundedReassembly_range {n' high : ℕ} (hmodulo : r.rxSnModulo = M) (hhigh : r.vrUh = high % M)
    (hn : n ≤ n') (hn' : n' < n + M) (hle : n' ≤ high) (hM : high ≤ n + M) :
    r.boundedReassembly (n % M : ℕ) (n' % M : ℕ) = some (reassembleRange n (n' - n) r) := by
  have hstart : ¬((n % M : ℕ) : ℤ) < 0 := by omega
  have hend : ¬((n' % M : ℕ) : ℤ) < 0 := by omega
  rw [boundedReassembly, if_neg hstart, if_neg hend]
  rcases Nat.eq_or_lt_of_le hn with rfl | hlt
  · rw [if_pos rfl, Nat.sub_self]
    rfl
  · have hne : ¬((n % M : ℕ) : ℤ) = (n' % M : ℕ) := fun heq ↦ mod_ne hlt hn' (Int.natCast_inj.mp heq)
    rw [if_neg hne, hmodulo, Int.toNat_natCast]
    exact boundedReassemblyLoop_range hmodulo hhigh hlt hn' hle hM (by omega)

end UmEntity

namespace UmReceiver

variable {M W i j fuel : ℕ} {content : ℕ → Option Bytes → Prop} {P : ℕ → UmEntity → Prop}
  {r : UmReceiver} {w : ReorderWindow Bytes} {pdu : Bytes}

/-- The state variables are those of a window over PDUs that are numbered without an end. -/
structure Tracks (M W : ℕ) (P : ℕ → UmEntity → Prop) (r : UmReceiver) (w : ReorderWindow Bytes) : Prop
    extends UmEntity.Ready M P w.next w.buffer r.toUmEntity where
  size : r.rxUmWindowSize = W
  size_lt : W < M
  size_le : W ≤ w.next
  vrUr : r.vrUr = w.next % M
  vrUh : r.vrUh = w.high % M
  vrUx : w.running = true → r.vrUx = w.mark % M
  running : r.tReordering.running = w.running

/-- The place of a sequence number above VR(UH) - UM_Window_Size. -/
def place (r : UmReceiver) (sn : ℤ) : ℤ := (sn - ((r.vrUh : ℤ) - r.rxUmWindowSize)).tmod r.rxSnModulo

theorem inWindow_eq (r : UmReceiver) (lowerBound sn higherBound : ℤ) :
    r.inWindow lowerBound sn higherBound =
      if r.place lowerBound > r.place sn then -2
      else if r.place higherBound < r.place sn then -1
      else if r.place lowerBound = r.place sn then if r.place higherBound = r.place sn then 3 else 1
      else if r.place higherBound = r.place sn then 2
      else 0 := rfl

theorem inReorderingWindow_eq (r : UmReceiver) (sn : ℤ) :
    r.inReorderingWindow sn = if 0 ≤ r.place sn ∧ r.place sn < r.rxUmWindowSize then 0 else -1 := rfl

namespace Tracks

theorem place (h : Tracks M W P r w) (hlow : w.high ≤ j + W) (hhigh : j + W < w.high + M) :
    r.place (j % M : ℕ) = (j : ℤ) + W - w.high ∨ r.place (j % M : ℕ) < 0 ∧ w.high < j := by
  rw [UmReceiver.place, h.vrUh, h.size, h.modulo]
  exact tmod_place h.size_lt hlow hhigh

theorem place_le (h : Tracks M W P r w) (hlow : w.high ≤ j + W) (hle : j ≤ w.high) :
    r.place (j % M : ℕ) = (j : ℤ) + W - w.high := by
  have hsize := h.size_lt
  rcases h.place hlow (by omega) with heq | ⟨-, hlt⟩
  · exact heq
  · omega

theorem inReorderingWindow (h : Tracks M W P r w) (hlow : w.high ≤ j + W) (hhigh : j + W < w.high + M) :
    r.inReorderingWindow (j % M : ℕ) = if j < w.high then 0 else -1 := by
  rw [inReorderingWindow_eq, h.size]
  rcases h.place hlow hhigh with heq | ⟨hneg, hlt⟩
  · rw [heq]
    split_ifs
    · rfl
    · omega
    · omega
    · rfl
  · rw [if_neg (by omega), if_neg (by omega)]

/-- The first test of a received PDU finds those that have been done with. -/
theorem inWindow_old (h : Tracks M W P r w) (hw : w.Placed W) (hlow : w.high ≤ i + W)
    (hhigh : i + W < w.high + M) :
    (r.inWindow ((r.vrUh : ℤ) - r.rxUmWindowSize) (i % M : ℕ) r.vrUr = 1 ∨
      r.inWindow ((r.vrUh : ℤ) - r.rxUmWindowSize) (i % M : ℕ) r.vrUr = 0) ↔ i < w.next := by
  have hlower : r.place ((r.vrUh : ℤ) - r.rxUmWindowSize) = 0 := by
    rw [UmReceiver.place, Int.sub_self, Int.zero_tmod]
  have hnext := h.place_le hw.high_le hw.next_le
  have hle := hw.next_le
  rw [inWindow_eq, hlower, h.vrUr, hnext]
  rcases h.place hlow hhigh with heq | ⟨hneg, hlt⟩
  · rw [heq]
    split_ifs
    · omega
    · exact iff_of_false (by decide) (by omega)
    · exact iff_of_false (by decide) (by omega)
    · exact iff_of_true (by decide) (by omega)
    · exact iff_of_false (by decide) (by omega)
    · exact iff_of_true (by decide) (by omega)
  · rw [if_pos hneg]
    exact iff_of_false (by decide) (by omega)

/-- The second test finds those that have arrived before and are not the next one. -/
theorem inWindow_duplicate (h : Tracks M W P r w) (hw : w.Placed W) (hlow : w.next ≤ i) (hhigh : i < w.high) :
    r.inWindow r.vrUr (i % M : ℕ) r.vrUh = 0 ↔ i ≠ w.next := by
  have hle := hw.high_le
  rw [inWindow_eq, h.vrUr, h.vrUh, h.place_le hw.high_le hw.next_le,
    h.place_le (Nat.le_add_right _ _) (Nat.le_refl _), h.place_le (by omega) (by omega)]
  split_ifs
  all_goals omega

/-- VR(UH) is not reached. -/
theorem inWindow_high (h : Tracks M W P r w) (hw : w.Placed W) :
    r.inWindow r.vrUr r.vrUh r.vrUh = 2 ↔ w.next < w.high := by
  have hle := hw.next_le
  rw [inWindow_eq, h.vrUr, h.vrUh, h.place_le hw.high_le hw.next_le,
    h.place_le (Nat.le_add_right _ _) (Nat.le_refl _)]
  split_ifs
  all_goals omega

theorem put (hrule : UmEntity.Rule M content P) (h : Tracks M W P r w) (hlow : w.next ≤ i)
    (hhigh : i < w.next + M) (pdu : Bytes) :
    Tracks M W P (r.storePduInDarBuffer pdu (i % M)) (w.put i pdu) where
  modulo := h.modulo
  stored := fun j hj hj' ↦ by
    change update r.darBuffer (i % M) (some pdu) (j % M) = update w.buffer i (some pdu) j
    rcases Nat.lt_trichotomy i j with hlt | rfl | hgt
    · have hj'' : j < w.next + M := hj'
      rw [update_of_ne (mod_ne hlt (by omega)).symm, update_of_ne (Nat.ne_of_gt hlt), h.stored j hj hj']
    · rw [update_self, update_self]
    · have hj'' : w.next ≤ j := hj
      rw [update_of_ne (mod_ne hgt (by omega)), update_of_ne (Nat.ne_of_lt hgt), h.stored j hj hj']
  above := fun j hj ↦ by
    have hj' : w.next + M ≤ j := hj
    exact (update_of_ne (by omega) _ _).trans (h.above j hj)
  beyond := fun sn hsn ↦ by
    have hlt := Nat.mod_lt i (Nat.zero_lt_of_lt h.size_lt)
    exact (update_of_ne (by omega) _ _).trans (h.beyond sn hsn)
  reassembled := hrule.frame _ _ r.vrUh _ h.reassembled
  size := h.size
  size_lt := h.size_lt
  size_le := h.size_le
  vrUr := h.vrUr
  vrUh := h.vrUh
  vrUx := h.vrUx
  running := h.running

/-- The numbers up to the `n`th are done with, and VR(UR) is moved to it. -/
theorem tryReassembly (hrule : UmEntity.Rule M content P) (hcontent : ∀ j, content j (w.buffer j))
    (h : Tracks M W P r w) {n : ℕ} (hlow : w.next ≤ n) (hn : n < w.next + M) (hle : n ≤ w.high)
    (hhigh : w.high ≤ w.next + M) :
    ∃ r', r.tryReassembly (w.next % M : ℕ) (n % M : ℕ) = some r' ∧ r'.vrUr = r.vrUr ∧
      r'.tReordering = r.tReordering ∧ r'.rxSnLength = r.rxSnLength ∧
      Tracks M W P { r' with vrUr := n % M } { w with next := n } := by
  have hM : 0 < M := Nat.zero_lt_of_lt h.size_lt
  have hbounded := UmEntity.boundedReassembly_range h.modulo h.vrUh hlow hn hle hhigh
  obtain ⟨hvrUh, -, hlength⟩ := UmEntity.reassembleRange_window w.next (n - w.next) r.toUmEntity
  have hready := h.toReady.range hrule hcontent hM (n - w.next)
  rw [Nat.add_sub_of_le hlow] at hready
  refine ⟨{ r with toUmEntity := UmEntity.reassembleRange w.next (n - w.next) r.toUmEntity }, ?_, rfl, rfl,
    hlength, ⟨hready.modulo, hready.stored, hready.above, hready.beyond, hready.reassembled⟩, h.size,
    h.size_lt, h.size_le.trans hlow, rfl, hvrUh.trans h.vrUh, h.vrUx, h.running⟩
  rw [UmReceiver.tryReassembly, hbounded]
  rfl

/-- A new upper end, from which the window reaches down to `w.next` or not. -/
theorem inReorderingWindow_next (h : Tracks M W P r w) (hlow : w.next ≤ w.high)
    (hhigh : w.high ≤ w.next + M) :
    r.inReorderingWindow r.vrUr = if w.high ≤ w.next + W ∧ w.next < w.high then 0 else -1 := by
  have hsize := h.size_lt
  rw [h.vrUr]
  by_cases hin : w.high ≤ w.next + W
  · rw [h.inReorderingWindow hin (by omega)]
    simp only [hin, true_and]
  · have hround := h.inReorderingWindow (j := w.next + M) (by omega) (by omega)
    rw [Nat.add_mod_right] at hround
    rw [hround, if_neg (by omega), if_neg (by omega)]

end Tracks

end UmReceiver

end EdgeSlice.Rlc
