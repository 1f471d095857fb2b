import EdgeSlice.GuardedRun
import EdgeSlice.Rlc.AmRxWindow

namespace EdgeSlice.Rlc

namespace AmRxBlock

/-- The block is the end of its PDU. -/
def IsLast (p : AmRxBlock) : Prop := p.pduInfo.rf = false ∨ p.pduInfo.lsf = true

/-- The blocks of a PDU are marked, and the last one and no other is the end of it. -/
def Whole (pdu : List AmRxBlock) : Prop :=
  ∃ parts last, pdu = parts ++ [last] ∧ (∀ p ∈ parts, p.allSegmentsReceived = true ∧ ¬p.IsLast) ∧
    last.allSegmentsReceived = true ∧ last.IsLast

variable {p : AmRxBlock} {cursor list : List AmRxBlock} {r j n : ℕ}

theorem Whole.head (h : Whole (p :: list)) :
    p.allSegmentsReceived = true ∧ (p.IsLast ∧ list = [] ∨ ¬p.IsLast ∧ Whole list) := by
  obtain ⟨parts, last, heq, hparts, hlast⟩ := h
  cases parts with
  | nil =>
    obtain ⟨rfl, rfl⟩ := List.cons.inj heq
    exact ⟨hlast.1, .inl ⟨hlast.2, rfl⟩⟩
  | cons q parts =>
    obtain ⟨rfl, rfl⟩ := List.cons.inj heq
    obtain ⟨hp, hparts⟩ := List.forall_mem_cons.mp hparts
    exact ⟨hp.1, .inr ⟨hp.2, parts, last, rfl, hparts, hlast⟩⟩

/-- The walk on the expiry of t-Reordering gets over whole PDUs. -/
theorem skipComplete_eq (hr : r < 1024) (hn : n ≤ 512) (hjn : j ≤ n) (hcursor : ∀ p ∈ cursor, p.sn < 1024)
    (hsorted : cursor.Pairwise fun p q ↦ amDiffSn p.sn r ≤ amDiffSn q.sn r)
    (hge : ∀ p ∈ cursor, j ≤ amDiffSn p.sn r)
    (hwhole : ∀ i, j ≤ i → i < n → Whole (cursor.filter fun p ↦ amDiffSn p.sn r = i)) :
    AmRxEntity.skipComplete (snAt r n) (snAt r j) cursor = snAt r n := by
  induction cursor generalizing j with
  | nil =>
    rcases hjn.eq_or_lt with rfl | hlt
    · rfl
    · obtain ⟨parts, last, heq, -⟩ := hwhole j le_rfl hlt
      exact absurd heq.symm (List.append_ne_nil_of_right_ne_nil _ (List.cons_ne_nil _ _))
  | cons p cursor ih =>
    obtain ⟨hp, hcursor⟩ := List.forall_mem_cons.mp hcursor
    obtain ⟨hpGe, hge⟩ := List.forall_mem_cons.mp hge
    obtain ⟨hfirst, hsorted⟩ := List.pairwise_cons.mp hsorted
    rw [AmRxEntity.skipComplete]
    rcases hjn.eq_or_lt with rfl | hlt
    · rw [if_neg fun hgo ↦ hgo.1 rfl]
    -- the first block is of the first PDU of the row
    have hpj : amDiffSn p.sn r = j := by
      by_contra hne
      obtain ⟨parts, last, heq, -⟩ := hwhole j le_rfl hlt
      have hlast : last ∈ (p :: cursor).filter fun p ↦ amDiffSn p.sn r = j := by
        rw [heq]
        exact List.mem_append_right _ (List.mem_singleton_self last)
      obtain ⟨hmem, hlastj⟩ := List.mem_filter.mp hlast
      rw [decide_eq_true_iff] at hlastj
      rcases List.mem_cons.mp hmem with rfl | hmem
      · exact hne hlastj
      · have hle := hfirst last hmem
        omega
    have hsn : p.sn = snAt r j := by
      rw [← hpj]
      exact (snAt_amDiffSn hr hp).symm
    have hother (i : ℕ) (hi : j + 1 ≤ i) : (p :: cursor).filter (fun p ↦ amDiffSn p.sn r = i) =
        cursor.filter fun p ↦ amDiffSn p.sn r = i :=
      List.filter_cons_of_neg (by rw [decide_eq_true_iff]; omega)
    have hpdu := hwhole j le_rfl hlt
    rw [List.filter_cons_of_pos (by rw [decide_eq_true_iff]; exact hpj)] at hpdu
    obtain ⟨hmarked, hcases⟩ := hpdu.head
    have hne : snAt r j ≠ snAt r n := snAt_ne hr (by omega) (by omega) hlt.ne
    rw [if_pos ⟨hne, hsn, hmarked⟩]
    rcases hcases with ⟨hlast, hnil⟩ | ⟨hlast, hrest⟩ <;> rw [IsLast] at hlast
    · rw [if_pos hlast, amNextSn_snAt]
      have hge' (q : AmRxBlock) (hq : q ∈ cursor) : j + 1 ≤ amDiffSn q.sn r := by
        have hne := List.filter_eq_nil_iff.mp hnil q hq
        rw [decide_eq_true_iff] at hne
        have hle := hge q hq
        omega
      exact ih hlt hcursor hsorted hge' fun i hi hin ↦ hother i hi ▸ hwhole i (by omega) hin
    · rw [if_neg hlast]
      refine ih hjn hcursor hsorted hge fun i hi hin ↦ ?_
      rcases hi.eq_or_lt with rfl | hi
      · exact hrest
      · exact hother i hi ▸ hwhole i hi.le hin

end AmRxBlock

namespace AmRxEntity

open AmRxBlock

variable {e e' : AmRxEntity} {p tb tb' : AmRxBlock} {before after next list : List AmRxBlock} {now r m h : ℕ}

/-- If VR(H) and VR(MS) differ, t-Reordering is running and VR(X) is defined. -/
def Supervised (e : AmRxEntity) : Prop :=
  e.tReordering.msDuration ≠ 0 → e.vrH ≠ e.vrMs → e.tReordering.running = true ∧ e.vrX ≠ rlcSnUndefined

/-- If `tb` is the last block that was missing below VR(H), VR(MS) gets to VR(H): from VR(R) on, the PDUs
without the last one are one block each, or VR(MS) is there already. -/
def ReachesVrH (e : AmRxEntity) (tb : AmRxBlock) (after : List AmRxBlock) : Prop :=
  (∀ i, 0 < i → i < e.offset e.vrH → Marked e.vrR e.receiverBuffer i) →
    (e.vrMs = e.vrR → ∀ i, i + 1 < e.offset e.vrH →
      ((tb :: after).filter fun p ↦ amDiffSn p.sn e.vrR = i).length ≤ 1) ∧
    (e.vrMs ≠ e.vrR → e.vrMs = e.vrH)

/-- When t-Reordering expires, only PDUs below VR(X) are not complete. -/
def OneGap (e : AmRxEntity) : Prop :=
  ∀ i, e.offset e.vrX ≤ i → i < e.offset e.vrH → Whole (e.receiverBuffer.filter fun p ↦ amDiffSn p.sn e.vrR = i)

def Watched (e : AmRxEntity) : AmRxEvent → Prop
  | .data _ tb => tb.sn < 1024 ∧ ∀ before tb' after, e.arrival tb = some (before, tb', after) →
      tb'.allSegmentsReceived = true → tb.sn = e.vrR → e.ReachesVrH tb' after
  | .timer now => e.tReordering.running = true → e.tReordering.expired now → e.OneGap

/-- After a block has been accepted, every gap is supervised. -/
theorem Accepted.supervised (ha : Accepted e now tb next r m h e') (hk : e.Kept)
    (hold : tb.allSegmentsReceived = true → ∀ p ∈ tb :: next, p.sn ≠ tb.sn → p ∈ e.receiverBuffer)
    (hreach : tb.sn = e.vrR → tb.allSegmentsReceived = true → e.ReachesVrH tb next) : e'.Supervised := by
  intro hduration hgap
  have hs := ha.settled hk
  rw [hs.msDuration_eq] at hduration
  by_cases hend : e'.vrH ≠ e'.vrR
  · have hrun := hs.started hend hduration
    refine ⟨hrun, fun hundefined ↦ ?_⟩
    have hlt := (hs.running hrun).vrX_lt
    rw [hundefined] at hlt
    exact absurd hlt (by decide)
  -- every PDU below VR(H) has been received
  rw [not_not] at hend
  exfalso
  have hvrMs : e'.vrMs = snAt e.vrR m := hs.vrMs.resolve_right fun heq ↦ hgap heq.symm
  have hrh := ha.r_le
  have hh := ha.h_le
  have hr : r = h := by
    rw [hs.vrH_eq, hs.vrR_eq] at hend
    exact (snAt_inj hk.vrR_lt (by omega) (by omega) hend).symm
  have hmh : m ≠ h := fun heq ↦ hgap (by rw [hvrMs, hs.vrH_eq, heq])
  have hpos : 0 < h := ha.h_eq ▸ lt_max_of_lt_right (Nat.succ_pos _)
  obtain ⟨hsn, hmarked⟩ := ha.complete (by omega)
  have htb : e.offset tb.sn = 0 := by
    rw [hsn, offset, amDiffSn_eq]
    have hvrR := hk.vrR_lt
    omega
  have hmax : h = max (e.offset e.vrH) 1 := by
    rw [ha.h_eq, htb]
  have hrow (i : ℕ) (hi : 0 < i) (hiH : i < e.offset e.vrH) : Marked e.vrR e.receiverBuffer i :=
    ha.marked hk hold hi (by omega)
  obtain ⟨hsame, hother⟩ := hreach hsn hmarked hrow
  have hmEq := ha.vrMs_eq
  by_cases hvr : e.vrMs = e.vrR
  · obtain ⟨m', hm', heq, -, hcases⟩ := vrMs_spec hk.vrR_lt hk.vrMs_lt ha.h_le ha.below
    have hmm : m = m' := snAt_inj hk.vrR_lt ha.m_lt hm' (hmEq.symm.trans heq)
    have hzero : e.offset e.vrMs = 0 := by
      rw [hvr, ← hsn, htb]
    rw [if_pos ⟨hsn.trans hvr.symm, hmarked⟩] at hmEq
    have hle := le_vrMs hk.vrR_lt (ha.sorted hmarked) ha.h_le ha.below hvr ha.r_le ha.passed
      (fun i hi ↦ hsame hvr i (by omega)) ha.m_lt hmEq
    omega
  · have hreached := hother hvr
    rw [if_neg fun hboth ↦ hvr (hboth.1.symm.trans hsn)] at hmEq
    have hoffset : e.offset e.vrH = m := by
      rw [← hreached, hmEq, offset, amDiffSn_snAt hk.vrR_lt ha.m_lt]
    have hne : m ≠ 0 := by
      rintro rfl
      exact hvr (hmEq.trans (snAt_zero hk.vrR_lt))
    omega

/-- After an expiry with one gap, VR(MS) is at VR(H). -/
theorem OneGap.vrMs_eq (h : e.OneGap) (hk : e.Kept) (hx : e.Supervises) : skipComplete e.vrH e.vrX e.fromVrX = e.vrH := by
  have hvrX : snAt e.vrR (e.offset e.vrX) = e.vrX := snAt_amDiffSn hk.vrR_lt hx.vrX_lt
  have hvrH : snAt e.vrR (e.offset e.vrH) = e.vrH := snAt_amDiffSn hk.vrR_lt hk.vrH_lt
  obtain ⟨happend, hbefore, hfrom⟩ := split_spec hk.blocks e.vrX
  have hcursor : (e.split e.vrX).2 = e.fromVrX := by
    rw [split, List.span_eq_takeWhile_dropWhile]
    rfl
  rw [hcursor] at happend hfrom
  have hsub : e.fromVrX.Sublist e.receiverBuffer := List.dropWhile_sublist _
  have hblocks := hk.blocks.sublist hsub
  have hwalk := skipComplete_eq hk.vrR_lt hk.vrH_le hx.le hblocks.sn_lt hblocks.sorted hfrom fun i hi hiH ↦ ?_
  · rw [hvrX, hvrH] at hwalk
    exact hwalk
  · have hwhole := h i hi hiH
    have hnone : (e.split e.vrX).1.filter (fun p ↦ amDiffSn p.sn e.vrR = i) = [] := by
      refine List.filter_eq_nil_iff.mpr fun p hp ↦ ?_
      rw [decide_eq_true_iff]
      exact ((hbefore p hp).trans_le hi).ne
    rwa [← happend, List.filter_append, hnone, List.nil_append] at hwhole

/-- Every watched step leaves the gaps supervised. -/
theorem Supervised.step {x : AmRxEvent} (hk : e.Kept) (hs : e.Supervised) (hgood : e.Watched x)
    (hstep : step x e = some e') : e'.Supervised := by
  cases x with
  | data now tb =>
    obtain ⟨hsn, hgood⟩ := hgood
    rcases data_cases hk hsn hstep with ⟨a, b, rfl⟩ | ⟨tb', next, r, m, h, haccepted, htb, hmarked⟩
    · exact hs
    · have hreach (hvr : tb'.sn = e.vrR) (hall : tb'.allSegmentsReceived = true) : e.ReachesVrH tb' next := by
        obtain ⟨⟨before, harrival⟩, -⟩ := hmarked hall
        exact hgood before tb' next harrival hall (htb ▸ hvr)
      have hold (hall : tb'.allSegmentsReceived = true) (p : AmRxBlock) (hp : p ∈ tb' :: next) (hne : p.sn ≠ tb'.sn) :
          p ∈ e.receiverBuffer := (hmarked hall).2 p hp (htb ▸ hne)
      exact haccepted.supervised hk hold hreach
  | timer now =>
    rcases timer_cases hk hstep with rfl | ⟨⟨hrun, hexpired⟩, k, t, a, b, -, -, hwalk, -, -, rfl⟩
    · exact hs
    · have hreached := (hgood hrun hexpired).vrMs_eq hk (hk.running hrun)
      intro _ hgap
      exact absurd (hreached.symm.trans hwalk) hgap

/-- The PDUs 0 and 2 are missing when t-Reordering expires, which supervises only the first one. -/
def twoGaps : List AmRxEvent :=
  [.data 0 (received twentyBytes 1 0 10), .data 1 (received twentyBytes 3 0 10), .timer 35]

end AmRxEntity

end EdgeSlice.Rlc
