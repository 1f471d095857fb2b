import EdgeSlice.Rlc.UmWindow

namespace EdgeSlice.Rlc

open Function SequenceSpace

namespace UmReceiver

variable {M W i n k : ℕ} {content : ℕ → Option Bytes → Prop} {P : ℕ → UmEntity → Prop}
  {r : UmReceiver} {w : ReorderWindow Bytes} {pdu : Bytes}

/-- The configuration that the operations leave as it is. -/
def SameConfig (r r' : UmReceiver) : Prop :=
  r'.tReordering.msDuration = r.tReordering.msDuration ∧ r'.rxSnLength = r.rxSnLength

theorem startTimerReordering_config (now : ℕ) (r : UmReceiver) : r.SameConfig (r.startTimerReordering now) := by
  rw [startTimerReordering]
  split_ifs
  · exact ⟨rfl, rfl⟩
  · exact ⟨rfl, rfl⟩

theorem restart_config (now : ℕ) (r : UmReceiver) : r.SameConfig (r.stopOutside.stopReached.restart now) := by
  have houtside : r.SameConfig r.stopOutside := by
    rw [stopOutside]
    split_ifs
    · exact ⟨rfl, rfl⟩
    · exact ⟨rfl, rfl⟩
  have hreached : r.SameConfig r.stopOutside.stopReached := by
    rw [stopReached]
    split_ifs
    · exact houtside
    · exact houtside
  rw [restart]
  split_ifs
  · have hstart := startTimerReordering_config now r.stopOutside.stopReached
    exact ⟨hstart.1.trans hreached.1, hstart.2.trans hreached.2⟩
  · exact hreached

theorem startAgain_config (now : ℕ) (r : UmReceiver) : r.SameConfig (r.startAgain now) := by
  rw [startAgain]
  split_ifs
  · exact startTimerReordering_config now r
  · exact ⟨rfl, rfl⟩

/-- VR(UR) has no part in the reassembly. -/
theorem tryReassembly_vrUr {startSn endSn : ℤ} {r' : UmReceiver} (h : r.tryReassembly startSn endSn = some r')
    (vrUr : ℕ) :
    { r with vrUr := vrUr }.tryReassembly startSn endSn = some { r' with vrUr := vrUr } := by
  rw [tryReassembly] at h ⊢
  obtain ⟨entity, hentity, heq⟩ := Option.bind_eq_some_iff.mp h
  obtain rfl : { r with toUmEntity := entity } = r' := Option.some.inj heq
  exact Option.bind_eq_some_iff.mpr ⟨entity, hentity, rfl⟩

theorem inReorderingWindow_congr {r' : UmReceiver} (hvrUh : r'.vrUh = r.vrUh)
    (hsize : r'.rxUmWindowSize = r.rxUmWindowSize) (hmodulo : r'.rxSnModulo = r.rxSnModulo) (sn : ℤ) :
    r'.inReorderingWindow sn = r.inReorderingWindow sn := by
  rw [inReorderingWindow_eq, inReorderingWindow_eq, UmReceiver.place, UmReceiver.place, hvrUh, hsize, hmodulo]

/-- What the branch of a PDU outside the window does. -/
theorem moveWindow_outside {sn lowest : ℕ} {r' : UmReceiver} (hout : r.inReorderingWindow sn < 0)
    (hr' : { r with vrUh := (sn + 1) % r.rxSnModulo } = r')
    (hlowest : (if (r'.vrUh : ℤ) - r'.rxUmWindowSize < 0 then (r'.vrUh : ℤ) - r'.rxUmWindowSize + r'.rxSnModulo
      else (r'.vrUh : ℤ) - r'.rxUmWindowSize) = lowest) :
    r.moveWindow sn =
      (if r'.inReorderingWindow r'.vrUr ≠ 0 then r'.tryReassembly r'.vrUr lowest else some r').map
        fun r ↦ if r.inReorderingWindow r.vrUr < 0 then { r with vrUr := lowest } else r := by
  subst hr'
  rw [moveWindow, if_pos hout]
  dsimp only at hlowest ⊢
  simp only [hlowest, Int.toNat_natCast]
  by_cases hleft : ({ r with vrUh := (sn + 1) % r.rxSnModulo } : UmReceiver).inReorderingWindow r.vrUr ≠ 0
  · rw [if_pos hleft, if_pos hleft]
    exact Option.map_eq_bind.symm
  · rw [if_neg hleft, if_neg hleft]
    rfl

namespace Tracks

theorem raise (hrule : UmEntity.Rule M content P) (h : Tracks M W P r w) {vrUh high : ℕ}
    (hhigh : vrUh = high % M) : Tracks M W P { r with vrUh := vrUh } { w with high := high } where
  modulo := h.modulo
  stored := h.stored
  above := h.above
  beyond := h.beyond
  reassembled := hrule.frame _ _ _ r.darBuffer h.reassembled
  size := h.size
  size_lt := h.size_lt
  size_le := h.size_le
  vrUr := h.vrUr
  vrUh := hhigh
  vrUx := h.vrUx
  running := h.running

/-- The numbers that a PDU leaves behind are done with before VR(UR) is moved. -/
theorem moveWindow (hrule : UmEntity.Rule M content P) (hcontent : ∀ j, content j (w.buffer j))
    (h : Tracks M W P r w) (hsize : w.high ≤ w.next + W) (hlow : w.next ≤ i)
    (hhigh : i + W < w.high + M) (hzero : 0 < W ∨ i + 1 < w.high + M) :
    ∃ r', r.moveWindow (i % M) = some r' ∧ Tracks M W P r' (w.moveWindow W i) ∧
      r'.tReordering = r.tReordering ∧ r'.rxSnLength = r.rxSnLength := by
  have hlt := h.size_lt
  have hle := h.size_le
  have hplace := h.inReorderingWindow (j := i) (by omega) hhigh
  rw [ReorderWindow.moveWindow]
  by_cases hin : i < w.high
  · rw [UmReceiver.moveWindow, hplace, if_pos hin, if_neg (by decide), if_pos hin]
    exact ⟨r, rfl, h, rfl, rfl⟩
  rw [if_neg hin] at hplace ⊢
  have htop : (i % M + 1) % r.rxSnModulo = (i + 1) % M := by rw [h.modulo, succ_mod]
  generalize hr₁ : ({ r with vrUh := (i % M + 1) % r.rxSnModulo } : UmReceiver) = r₁
  have hraised : Tracks M W P r₁ { w with high := i + 1 } := by
    rw [← hr₁]
    exact h.raise hrule htop
  have htimer : r₁.tReordering = r.tReordering := by rw [← hr₁]
  have hlength : r₁.rxSnLength = r.rxSnLength := by rw [← hr₁]
  have hnext : w.next < i + 1 := Nat.lt_succ_of_le hlow
  have hreach : i + 1 ≤ w.next + M := by omega
  have hplace' := hraised.inReorderingWindow_next hnext.le hreach
  rw [moveWindow_outside (by rw [hplace]; decide) hr₁ (by
    rw [hraised.vrUh, hraised.size, hraised.modulo]
    exact lower_end hlt (i + 1) (by omega))]
  by_cases hkeep : i + 1 ≤ w.next + W
  · have hmax : max w.next (i + 1 - W) = w.next := Nat.max_eq_left (by omega)
    have hstays := hplace'.trans (if_pos ⟨hkeep, hnext⟩)
    rw [if_neg (not_not.mpr hstays), Option.map_some, hstays, if_neg (by decide), hmax]
    exact ⟨_, rfl, hraised, htimer, hlength⟩
  · have hmax : max w.next (i + 1 - W) = i + 1 - W := Nat.max_eq_right (by omega)
    have hleft := hplace'.trans (if_neg fun hand ↦ hkeep hand.1)
    have hlow' : w.next ≤ i + 1 - W := by omega
    have hlow'' : i + 1 - W < w.next + M := by omega
    obtain ⟨r', hreassembled, hvrUr, htimer', hlength', htracks⟩ :=
      hraised.tryReassembly (w := { w with high := i + 1 }) hrule hcontent hlow' hlow'' (Nat.sub_le _ _)
        hreach
    have hleft' : r'.inReorderingWindow r'.vrUr = -1 := by
      rw [hvrUr, ← hleft]
      exact inReorderingWindow_congr (htracks.vrUh.trans hraised.vrUh.symm)
        (htracks.size.trans hraised.size.symm) (htracks.modulo.trans hraised.modulo.symm) _
    rw [if_pos (by rw [hleft]; decide), hraised.vrUr, hreassembled, Option.map_some, hleft',
      if_pos (by decide), hmax]
    exact ⟨_, rfl, htracks, htimer'.trans htimer, hlength'.trans hlength⟩

/-- VR(UR) is moved on to the first number that is not in the buffer. -/
theorem nextMissing (h : Tracks M W P r w) (hlow : w.next ≤ n) (hn : n < w.high) (hhigh : w.high < w.next + M)
    (hfuel : w.high - n ≤ k) :
    r.nextMissing k (n % M) = some (ReorderWindow.skip w.buffer (w.high - (n + 1)) (n + 1) % M) := by
  induction k generalizing n with
  | zero => omega
  | succ k ih =>
    rw [UmReceiver.nextMissing, getPduFromDarBuffer, h.modulo, succ_mod, h.vrUh,
      h.stored (n + 1) (by omega) (by omega)]
    rcases Nat.eq_or_lt_of_le (Nat.succ_le_of_lt hn) with hlast | hlt
    · have hlast' : (n + 1) % M = w.high % M := congrArg (· % M) hlast
      have hrest : w.high - (n + 1) = 0 := by omega
      rw [if_neg (by rw [hlast']; exact fun hand ↦ hand.2 rfl), hrest]
      rfl
    · obtain ⟨d, hd⟩ := Nat.exists_eq_add_of_lt hlt
      have hrest : w.high - (n + 1) = w.high - (n + 1 + 1) + 1 := by omega
      have htop : (n + 1) % M ≠ w.high % M := mod_ne hlt (by omega)
      rw [hrest, ReorderWindow.skip]
      by_cases hsome : (w.buffer (n + 1)).isSome
      · rw [if_pos ⟨hsome, htop⟩, if_pos hsome]
        exact ih (by omega) hlt (by omega)
      · rw [if_neg fun hand ↦ hsome hand.1, if_neg hsome]

theorem moveVrUr (hM : 1 < M) (hrule : UmEntity.Rule M content P) (hcontent : ∀ j, content j (w.buffer j))
    (h : Tracks M W P r w) (hw : w.Placed W) (hsome : (w.buffer i).isSome) (hi : i < w.high)
    (hlow : w.next ≤ i + 1) :
    ∃ r', r.moveVrUr (i % M) = some r' ∧ Tracks M W P r' (w.moveNext i) ∧
      r'.tReordering = r.tReordering ∧ r'.rxSnLength = r.rxSnLength := by
  have hlt := h.size_lt
  have hhigh := hw.high_le
  rw [UmReceiver.moveVrUr, ReorderWindow.moveNext, getPduFromDarBuffer, h.vrUr]
  by_cases hnext : i = w.next
  · obtain ⟨d, hd⟩ := Nat.exists_eq_add_of_lt hi
    have hskip := ReorderWindow.skip_bounds w.buffer (w.high - w.next) w.next
    have hmissing := h.nextMissing (n := w.next) (k := M) (Nat.le_refl _) (by omega) (by omega) (by omega)
    have hfirst : ReorderWindow.skip w.buffer (w.high - w.next) w.next =
        ReorderWindow.skip w.buffer (w.high - (w.next + 1)) (w.next + 1) := by
      have hrest : w.high - w.next = w.high - (w.next + 1) + 1 := by omega
      rw [hrest, ReorderWindow.skip, if_pos (by rw [← hnext]; exact hsome)]
    rw [← hfirst] at hmissing
    obtain ⟨r', hreassembled, -, htimer, hlength, htracks⟩ := h.tryReassembly hrule hcontent hskip.1
      (by omega) (by omega) (by omega)
    rw [hnext, h.stored w.next (Nat.le_refl _) (by omega), ← hnext, if_pos ⟨rfl, hsome⟩, if_pos rfl,
      hnext, h.modulo, hmissing]
    exact ⟨_, tryReassembly_vrUr hreassembled _, htracks, htimer, hlength⟩
  · have hne : i % M ≠ w.next % M := by
      rcases Nat.lt_or_gt_of_ne hnext with hbelow | habove
      · exact mod_ne hbelow (by omega)
      · exact (mod_ne habove (by omega)).symm
    rw [if_neg fun hand ↦ hne hand.1, if_neg hnext]
    exact ⟨r, rfl, h, rfl, rfl⟩

theorem stopAndReset (h : Tracks M W P r w) :
    Tracks M W P r.stopAndResetTimerReordering { w with running := false } where
  toReady := h.toReady
  size := h.size
  size_lt := h.size_lt
  size_le := h.size_le
  vrUr := h.vrUr
  vrUh := h.vrUh
  vrUx := Bool.noConfusion
  running := rfl

theorem start (h : Tracks M W P r w) (now : ℕ) :
    Tracks M W P { r.startTimerReordering now with vrUx := r.vrUh }
      { w with mark := w.high, running := decide (r.tReordering.msDuration > 0) || w.running } := by
  rw [startTimerReordering]
  split_ifs with hduration
  · refine ⟨h.toReady, h.size, h.size_lt, h.size_le, h.vrUr, h.vrUh, fun _ ↦ h.vrUh, ?_⟩
    change true = (decide (r.tReordering.msDuration > 0) || w.running)
    rw [decide_eq_true hduration, Bool.true_or]
  · refine ⟨h.toReady, h.size, h.size_lt, h.size_le, h.vrUr, h.vrUh, fun _ ↦ h.vrUh, ?_⟩
    change r.tReordering.running = (decide (r.tReordering.msDuration > 0) || w.running)
    rw [decide_eq_false hduration, Bool.false_or, h.running]

/-- Where VR(UX) has fallen out of the window. -/
theorem outside_iff (h : Tracks M W P r w) (hrunning : w.running = true)
    (hmark : w.mark ≤ w.high) (hspan : w.high < w.mark + M) :
    (r.vrUh ≠ r.vrUx ∧ r.inReorderingWindow r.vrUx < 0) ↔ w.mark + W < w.high := by
  have hlt := h.size_lt
  rw [h.vrUh, h.vrUx hrunning]
  by_cases hin : w.high ≤ w.mark + W
  · rw [h.inReorderingWindow hin (by omega)]
    refine iff_of_false ?_ (by omega)
    rintro ⟨hne, hneg⟩
    split_ifs at hneg with hbelow
    · exact absurd hneg (by decide)
    · exact hne (congrArg (· % M) (Nat.le_antisymm (Nat.le_of_not_lt hbelow) hmark))
  · have hround := h.inReorderingWindow (j := w.mark + M) (by omega) (by omega)
    rw [Nat.add_mod_right] at hround
    rw [hround, if_neg (by omega)]
    exact iff_of_true ⟨(mod_ne (by omega) hspan).symm, by decide⟩ (by omega)

/-- Where VR(UR) has reached VR(UX), but not together with VR(UH). -/
theorem reached_iff (h : Tracks M W P r w) (hw : w.Placed W) (hrunning : w.running = true)
    (hmark : w.mark ≤ w.high) (hin : w.high ≤ w.mark + W) :
    (r.inWindow r.vrUr r.vrUx r.vrUh = -2 ∨ r.inWindow r.vrUr r.vrUx r.vrUh = 1) ↔
      w.mark < w.next ∨ w.mark = w.next ∧ w.next ≠ w.high := by
  rw [inWindow_eq, h.vrUr, h.vrUx hrunning, h.vrUh, h.place_le hw.high_le hw.next_le,
    h.place_le hin hmark, h.place_le (Nat.le_add_right _ _) (Nat.le_refl _)]
  split_ifs
  · exact iff_of_true (by decide) (by omega)
  · omega
  · exact iff_of_false (by decide) (by omega)
  · exact iff_of_true (by decide) (by omega)
  · exact iff_of_false (by decide) (by omega)
  · exact iff_of_false (by decide) (by omega)

theorem stop (h : Tracks M W P r w) (hw : w.Placed W) (hmark : w.running = true → w.mark ≤ w.high)
    (hspan : w.running = true → w.high < w.mark + M) :
    r.stopOutside.stopReached =
      if w.running = true ∧ (w.mark < w.next ∨ w.mark = w.next ∧ w.next ≠ w.high) then
        r.stopAndResetTimerReordering
      else r := by
  have hhigh := hw.high_le
  rw [stopOutside, h.running]
  by_cases hrunning : w.running = true
  · by_cases hout : w.mark + W < w.high
    · have hstop := (h.outside_iff hrunning (hmark hrunning) (hspan hrunning)).mpr hout
      rw [if_pos ⟨hrunning, hstop⟩, if_pos ⟨hrunning, Or.inl (by omega)⟩, stopReached, if_neg]
      exact fun hand ↦ Bool.noConfusion hand.1
    · have hkeep := mt (h.outside_iff hrunning (hmark hrunning) (hspan hrunning)).mp hout
      rw [if_neg fun hand ↦ hkeep hand.2, stopReached, h.running]
      simp only [h.reached_iff hw hrunning (hmark hrunning) (Nat.le_of_not_lt hout)]
  · rw [if_neg fun hand ↦ hrunning hand.1, if_neg fun hand ↦ hrunning hand.1, stopReached, h.running,
      if_neg fun hand ↦ hrunning hand.1]

/-- A timer that has run out is started again if something is missing. -/
theorem startAgain (h : Tracks M W P r w) (hw : w.Placed W) (hrunning : w.running = true) (now : ℕ) :
    Tracks M W P (r.startAgain now)
      (if w.next < w.high then { w with mark := w.high } else { w with running := false }) := by
  rw [UmReceiver.startAgain]
  by_cases hlt : w.next < w.high
  · have hstart := h.start now
    rw [hrunning, Bool.or_true] at hstart
    rw [if_pos ((h.inWindow_high hw).mpr hlt), if_pos hlt]
    exact ⟨hstart.toReady, hstart.size, hstart.size_lt, hstart.size_le, hstart.vrUr, hstart.vrUh,
      fun _ ↦ hstart.vrUx rfl, hstart.running.trans hrunning.symm⟩
  · rw [if_neg (mt (h.inWindow_high hw).mp hlt), if_neg hlt]
    exact h.stopAndReset

theorem restart (h : Tracks M W P r w) (hw : w.Placed W) (hstopped : w.running = false) (now : ℕ) :
    Tracks M W P (r.restart now)
      (if w.next < w.high then
        { w with mark := w.high, running := decide (r.tReordering.msDuration > 0) }
      else { w with running := false }) := by
  rw [UmReceiver.restart, h.running]
  by_cases hlt : w.next < w.high
  · have hstart := h.start now
    rw [hstopped, Bool.or_false] at hstart
    rw [if_pos ⟨by rw [hstopped]; exact Bool.noConfusion, (h.inWindow_high hw).mpr hlt⟩, if_pos hlt]
    exact hstart
  · rw [if_neg fun hand ↦ hlt ((h.inWindow_high hw).mp hand.2), if_neg hlt, ← hstopped]
    exact h

/-- t-Reordering and VR(UX) go as the window's timer does. -/
theorem setTimer (h : Tracks M W P r w) (hw : w.Placed W) (hmark : w.running = true → w.mark ≤ w.high)
    (hspan : w.running = true → w.high < w.mark + M) (now : ℕ) :
    Tracks M W P (r.stopOutside.stopReached.restart now)
      (w.setTimer (decide (r.tReordering.msDuration > 0))) := by
  rw [h.stop hw hmark hspan]
  simp only [ReorderWindow.setTimer]
  by_cases hrunning : w.running = true
  · by_cases hstop : w.mark < w.next ∨ w.mark = w.next ∧ w.next ≠ w.high
    · rw [if_pos ⟨hrunning, hstop⟩, if_neg fun hand ↦ hand.2 hstop]
      exact h.stopAndReset.restart ⟨hw.next_le, hw.high_le, hw.above⟩ rfl now
    · rw [if_neg fun hand ↦ hstop hand.2, if_pos ⟨hrunning, hstop⟩, UmReceiver.restart, h.running,
        if_neg fun hand ↦ hand.1 hrunning]
      exact h
  · have hstopped : w.running = false := Bool.eq_false_of_not_eq_true hrunning
    rw [if_neg fun hand ↦ hrunning hand.1, if_neg fun hand ↦ hrunning hand.1]
    exact h.restart hw hstopped now

theorem firstMissing (h : Tracks M W P r w) (hw : w.Placed W) (hlow : w.next ≤ n) (hn : n ≤ w.high)
    (hfuel : w.high - n < k) :
    r.firstMissing k (n % M) = some (ReorderWindow.skip w.buffer (w.high - n) n % M) := by
  have hlt := h.size_lt
  have hhigh := hw.high_le
  induction k generalizing n with
  | zero => omega
  | succ k ih =>
    rw [UmReceiver.firstMissing, getPduFromDarBuffer, h.modulo, succ_mod, h.stored n hlow (by omega)]
    rcases Nat.eq_or_lt_of_le hn with rfl | hbelow
    · rw [hw.above _ (Nat.le_refl _), if_neg (by decide), Nat.sub_self]
      rfl
    · obtain ⟨d, hd⟩ := Nat.exists_eq_add_of_lt hbelow
      have hrest : w.high - n = w.high - (n + 1) + 1 := by omega
      rw [hrest, ReorderWindow.skip]
      by_cases hsome : (w.buffer n).isSome
      · rw [if_pos hsome, if_pos hsome]
        exact ih (by omega) hbelow (by omega)
      · rw [if_neg hsome, if_neg hsome]

end Tracks

/-- The receiver and the window go together, and the PDUs in the buffer are what was sent. -/
structure Follows (M W : ℕ) (content : ℕ → Option Bytes → Prop) (P : ℕ → UmEntity → Prop)
    (r : UmReceiver) (w : ReorderWindow Bytes) : Prop extends Tracks M W P r w where
  good : w.Good W
  modulo_gt : 1 < M
  content : ∀ j, content j (w.buffer j)

namespace Follows

variable {now : ℕ}

theorem put_content (h : Follows M W content P r w) (hpdu : content i (some pdu)) (j : ℕ) :
    content j ((w.put i pdu).buffer j) := by
  by_cases hj : j = i
  · have hnew : (w.put i pdu).buffer j = some pdu := by
      rw [hj]
      exact update_self _ _ _
    rw [hnew, hj]
    exact hpdu
  · have hkept : (w.put i pdu).buffer j = w.buffer j := update_of_ne hj _ _
    rw [hkept]
    exact h.content j

/-- A PDU is received as the window receives it, where its number is near the upper end. -/
theorem receive (hrule : UmEntity.Rule M content P) (h : Follows M W content P r w)
    (hlow : w.high ≤ i + W) (hhigh : i + W < w.high + M) (hzero : 0 < W ∨ i + 1 < w.high + M)
    (hsn : r.pduSn pdu = i % M) (hpdu : content i (some pdu)) (now : ℕ) :
    ∃ r', r.receiveProcessDar now pdu = some r' ∧
      Follows M W content P r' (w.receive W (decide (r.tReordering.msDuration > 0)) i pdu) ∧
      r.SameConfig r' := by
  have hgood := h.good
  have hbound := hgood.high_le
  have hcontent := h.put_content hpdu
  simp only [receiveProcessDar, hsn, h.inWindow_old hgood.toPlaced hlow hhigh, ReorderWindow.receive]
  by_cases hold : i < w.next
  · rw [if_pos hold, if_pos hold]
    exact ⟨r, rfl, h, rfl, rfl⟩
  have hnext : w.next ≤ i := Nat.le_of_not_lt hold
  have hstored : r.getPduFromDarBuffer (i % M) = w.buffer i := h.stored i hnext (by omega)
  have hduplicate : ((w.buffer i).isSome ∧ r.inWindow r.vrUr (i % M : ℕ) r.vrUh = 0) ↔
      (w.buffer i).isSome ∧ i ≠ w.next := by
    refine and_congr_right fun hsome ↦ h.inWindow_duplicate hgood.toPlaced hnext ?_
    by_contra hge
    rw [hgood.above i (Nat.le_of_not_lt hge)] at hsome
    exact Bool.noConfusion hsome
  rw [if_neg hold, if_neg hold, hstored]
  simp only [hduplicate]
  by_cases hdup : (w.buffer i).isSome ∧ i ≠ w.next
  · rw [if_pos hdup, if_pos hdup]
    exact ⟨r, rfl, h, rfl, rfl⟩
  rw [if_neg hdup, if_neg hdup]
  have hput := h.toTracks.put hrule hnext (by omega) pdu
  obtain ⟨r₁, hr₁, htracks₁, htimer₁, hlength₁⟩ :=
    hput.moveWindow hrule hcontent hbound hnext hhigh hzero
  -- the window after the first move
  have hplaced₁ := hgood.toPlaced.moveWindow i pdu
  have hbuffer₁ := ReorderWindow.moveWindow_buffer W i (w.put i pdu)
  have htop₁ := ReorderWindow.lt_moveWindow_high W i (w.put i pdu)
  have hnext₁ := ReorderWindow.moveWindow_next_le_succ W (w := w.put i pdu) (Nat.le_succ_of_le hnext)
  have hsome₁ : (((w.put i pdu).moveWindow W i).buffer i).isSome := by
    rw [hbuffer₁]
    exact Option.isSome_iff_exists.mpr ⟨pdu, update_self _ _ _⟩
  obtain ⟨r₂, hr₂, htracks₂, htimer₂, hlength₂⟩ := htracks₁.moveVrUr h.modulo_gt hrule
    (fun j ↦ by rw [hbuffer₁]; exact hcontent j) hplaced₁ hsome₁ htop₁ hnext₁
  have hplaced₂ := hplaced₁.moveNext i
  obtain ⟨hmark₁, hrunning₁⟩ := ReorderWindow.moveWindow_mark W i (w.put i pdu)
  obtain ⟨hmark₂, hrunning₂, hhigh₂⟩ := ReorderWindow.moveNext_mark i ((w.put i pdu).moveWindow W i)
  have hmark : (((w.put i pdu).moveWindow W i).moveNext i).running = true →
      (((w.put i pdu).moveWindow W i).moveNext i).mark ≤ (((w.put i pdu).moveWindow W i).moveNext i).high := by
    rw [hmark₂, hrunning₂, hhigh₂, hmark₁, hrunning₁]
    intro hrunning
    exact (hgood.mark_le hrunning).trans (ReorderWindow.moveWindow_high_le W i (w.put i pdu))
  have hspan : (((w.put i pdu).moveWindow W i).moveNext i).running = true →
      (((w.put i pdu).moveWindow W i).moveNext i).high <
        (((w.put i pdu).moveWindow W i).moveNext i).mark + M := by
    rw [hmark₂, hrunning₂, hhigh₂, hmark₁, hrunning₁]
    intro hrunning
    have hwaits : w.next < w.mark ∨ w.next = w.mark ∧ w.mark = w.high := hgood.waits hrunning
    have hsize := h.size_lt
    change ((w.put i pdu).moveWindow W i).high < w.mark + M
    rw [ReorderWindow.moveWindow_high]
    change (if i < w.high then w.high else i + 1) < w.mark + M
    split_ifs
    · omega
    · omega
  have htracks := htracks₂.setTimer hplaced₂ hmark hspan now
  have hconfig := restart_config now r₂
  have hduration : r₂.tReordering.msDuration = r.tReordering.msDuration :=
    congrArg UmTimer.msDuration (htimer₂.trans htimer₁)
  rw [hduration] at htracks
  refine ⟨_, ?_, ⟨htracks, hplaced₂.setTimer _ hmark, h.modulo_gt, fun j ↦ ?_⟩,
    hconfig.1.trans hduration, hconfig.2.trans (hlength₂.trans hlength₁)⟩
  · rw [hr₁]
    simp only [Option.bind_eq_bind, Option.bind_some, hr₂]
    rfl
  · rw [ReorderWindow.setTimer_buffer, ReorderWindow.moveNext_buffer, hbuffer₁]
    exact hcontent j

/-- t-Reordering runs out or not. -/
theorem checkTimer (hrule : UmEntity.Rule M content P) (h : Follows M W content P r w) (now : ℕ) :
    ∃ r' w', r.checkTimerDarTimeOut now = some r' ∧ (w' = w ∨ w.running = true ∧ w' = w.expire) ∧
      Follows M W content P r' w' ∧ r.SameConfig r' := by
  have hgood := h.good
  have hbound := hgood.high_le
  have hsize := h.size_lt
  rw [checkTimerDarTimeOut, h.running]
  by_cases hexpired : w.running = true ∧ r.tReordering.expired now
  · have hrunning := hexpired.1
    have hmark := hgood.mark_le hrunning
    have hwaits := hgood.waits hrunning
    have hskip := ReorderWindow.skip_bounds w.buffer (w.high - w.mark) w.mark
    have hmissing := h.firstMissing (n := w.mark) (k := M) hgood.toPlaced (by omega) hmark (by omega)
    obtain ⟨hexpire, -⟩ := hgood.expire hrunning
    simp only [ReorderWindow.expire] at hexpire ⊢
    generalize ReorderWindow.skip w.buffer (w.high - w.mark) w.mark = n at hskip hmissing hexpire ⊢
    obtain ⟨r₁, hreassembled, -, htimer, hlength, htracks⟩ := h.tryReassembly hrule h.content
      (n := n) (by omega) (by omega) (by omega) (by omega)
    have hplaced : ReorderWindow.Placed W { w with next := n } :=
      ⟨by change n ≤ w.high; omega, by change w.high ≤ n + W; omega, hgood.above⟩
    have hconfig := startAgain_config now { r₁ with vrUr := n % M }
    refine ⟨UmReceiver.startAgain now { r₁ with vrUr := n % M }, _, ?_, Or.inr ⟨hrunning, rfl⟩,
      ⟨htracks.startAgain hplaced hrunning now, hexpire, h.modulo_gt, ?_⟩,
      hconfig.1.trans (congrArg UmTimer.msDuration htimer), hconfig.2.trans hlength⟩
    · have hfirst : r.firstMissing r.rxSnModulo r.vrUx = some (n % M) := by
        rw [h.vrUx hrunning, h.modulo, hmissing]
      rw [if_pos hexpired, hfirst, h.vrUr]
      simp only [Option.bind_eq_bind, Option.bind_some, tryReassembly_vrUr hreassembled]
      rfl
    · split_ifs
      · exact h.content
      · exact h.content
  · rw [if_neg hexpired]
    exact ⟨r, w, rfl, Or.inl rfl, h, rfl, rfl⟩

end Follows

end UmReceiver

end EdgeSlice.Rlc
