import EdgeSlice.Rlc.AmAcknowledgement
import EdgeSlice.Rlc.AmRxReceive
import EdgeSlice.Rlc.AmRxUnion

namespace EdgeSlice.Rlc

namespace AmInsertion

/-- What an insertion does to the list `before ++ cursor`, of which `cursor` begins where the PDU of
`tb` belongs: it keeps some blocks of that PDU before the new block. -/
inductive Into (tb : AmRxBlock) (before cursor : List AmRxBlock) : AmInsertion → Prop
  | refused (status : AmRxPduStatus) : Into tb before cursor (.refused status)
  | placed {kept post : List AmRxBlock} (hkept : ∀ p ∈ kept, p.sn = tb.sn)
      (hsub : (kept ++ post).Sublist cursor) : Into tb before cursor (.placed (before ++ kept) tb post)
  | copied {kept post : List AmRxBlock} {x : AmRxBlock} (hkept : ∀ p ∈ kept, p.sn = tb.sn)
      (hsub : (kept ++ post).Sublist cursor) (hsn : x.sn = tb.sn) (hx : x.allSegmentsReceived = false) :
      Into tb before cursor (.copied (before ++ (kept ++ x :: post)))

end AmInsertion

namespace AmRxBlock

open AmInsertion

variable {p tb first : AmRxBlock} {before kept cursor next list post : List AmRxBlock} {i : AmInsertion}
  {sn soStart soEnd : ℕ}

theorem into_of_link (hkept : ∀ p ∈ kept, p.sn = tb.sn) (hsub : (kept ++ post).Sublist cursor)
    (h : tb.link (before ++ kept) post = some i) : Into tb before cursor i := by
  rw [link] at h
  split_ifs at h
  cases h
  exact .placed hkept hsub

theorem into_of_link_before (hsub : post.Sublist cursor) (h : tb.link before post = some i) :
    Into tb before cursor i := by
  have hnone : ∀ p ∈ ([] : List AmRxBlock), p.sn = tb.sn := fun p hp ↦ by cases hp
  rw [← List.append_nil before] at h
  exact into_of_link hnone hsub h

theorem into_of_linkTruncated (hkept : ∀ p ∈ kept, p.sn = tb.sn) (hsub : (kept ++ post).Sublist cursor)
    (h : tb.linkTruncated soStart soEnd (before ++ kept) post = some i) : Into tb before cursor i := by
  rw [linkTruncated] at h
  split_ifs at h
  cases h
  rw [List.append_assoc]
  exact .copied hkept hsub rfl rfl

theorem discardEmbedded_sublist (sn soEnd : ℕ) (cursor : List AmRxBlock) :
    (discardEmbedded sn soEnd cursor).Sublist cursor := List.dropWhile_sublist _

/-- The loop over contiguous segments splits the list. -/
theorem spanContiguous_spec (wrap : ℤ → ℤ) (sn : ℕ) (a : ℤ) (cursor : List AmRxBlock) :
    (spanContiguous wrap sn a cursor).2.1 ++ (spanContiguous wrap sn a cursor).2.2 = cursor ∧
      ∀ p ∈ (spanContiguous wrap sn a cursor).2.1, p.sn = sn := by
  induction cursor generalizing a with
  | nil => exact ⟨rfl, fun p hp ↦ by cases hp⟩
  | cons q cursor ih =>
    rw [spanContiguous]
    split_ifs with hq
    · obtain ⟨happend, hsn⟩ := ih (wrap (a + q.pduInfo.payloadSize))
      refine ⟨congrArg (q :: ·) happend, fun p hp ↦ ?_⟩
      rcases List.mem_cons.mp hp with rfl | hp
      · exact hq.1
      · exact hsn p hp
    · exact ⟨rfl, fun p hp ↦ by cases hp⟩

theorem into_of_insertBefore (h : tb.insertBefore before cursor = some i) : Into tb before cursor i := by
  rw [insertBefore] at h
  split_ifs at h
  rw [← List.append_nil before] at h
  exact into_of_linkTruncated (fun p hp ↦ by cases hp) (discardEmbedded_sublist _ _ _) h

theorem into_of_insertOverlapping {upTo rest : List AmRxBlock} {previous : AmRxBlock}
    (hsn : ∀ p ∈ upTo, p.sn = tb.sn) (happend : upTo ++ rest = cursor)
    (h : tb.insertOverlapping before upTo previous rest = some i) : Into tb before cursor i := by
  rw [insertOverlapping] at h
  dsimp only at h
  obtain ⟨hspan, hspanSn⟩ := spanContiguous_spec (fun x ↦ uint16 x) tb.sn (uint16 previous.stop) rest
  generalize spanContiguous (fun x ↦ uint16 x) tb.sn (uint16 previous.stop) rest = span at *
  obtain ⟨contiguousEnd, contiguous, behind⟩ := span
  dsimp only at h hspan hspanSn
  split_ifs at h
  all_goals first
    | cases h
      exact .refused _
    | refine into_of_linkTruncated (fun p hp ↦ ?_) ?_ h
      · rcases List.mem_append.mp hp with hp | hp
        · exact hsn p hp
        · exact hspanSn p hp
      · rw [← happend, ← hspan, List.append_assoc]
        exact ((discardEmbedded_sublist _ _ _).append_left _).append_left _

theorem into_of_insertBehind (hfirst : first.sn = tb.sn) (h : tb.insertBehind before first next = some i) :
    Into tb before (first :: next) i := by
  have hpassed (p : AmRxBlock)
      (hp : p ∈ (first :: next).takeWhile fun p ↦ p.sn = tb.sn ∧ p.stop ≤ (tb.pduInfo.so : ℤ)) : p.sn = tb.sn := by
    have h := List.mem_takeWhile_imp hp
    rw [decide_eq_true_iff] at h
    exact h.1
  have happend := List.takeWhile_append_dropWhile (l := first :: next)
    (p := fun p ↦ p.sn = tb.sn ∧ p.stop ≤ (tb.pduInfo.so : ℤ))
  have hsingle (p : AmRxBlock) (hp : p ∈ [first]) : p.sn = tb.sn := by
    rw [List.mem_singleton.mp hp]
    exact hfirst
  rw [insertBehind] at h
  dsimp only at h
  generalize (first :: next).takeWhile (fun p ↦ p.sn = tb.sn ∧ p.stop ≤ (tb.pduInfo.so : ℤ)) = passed at *
  generalize (first :: next).dropWhile (fun p ↦ p.sn = tb.sn ∧ p.stop ≤ (tb.pduInfo.so : ℤ)) = rest at *
  by_cases hall : (rest.head?.all fun p ↦ p.sn ≠ tb.sn ∨ (uint16 (tb.stop - 1) : ℤ) < p.so) = true
  · rw [if_pos hall] at h
    cases passed with
    | nil => exact into_of_link hsingle (List.Sublist.refl _) h
    | cons p passed => exact into_of_link hpassed (happend ▸ List.Sublist.refl _) h
  · rw [if_neg hall] at h
    cases passed with
    | nil => exact into_of_insertOverlapping hsingle rfl h
    | cons p passed => exact into_of_insertOverlapping hpassed happend h

theorem sn_ne_of_mem_dropWhile {list : List AmRxBlock} (h : list.Pairwise fun p q ↦ p.sn ≠ sn → q.sn ≠ sn)
    (hp : p ∈ list.dropWhile fun p ↦ p.sn = sn) : p.sn ≠ sn := by
  induction list with
  | nil => cases hp
  | cons q list ih =>
    obtain ⟨hq, h⟩ := List.pairwise_cons.mp h
    by_cases hsn : q.sn = sn
    · rw [List.dropWhile_cons_of_pos (by simpa using hsn)] at hp
      exact ih h hp
    · rw [List.dropWhile_cons_of_neg (by simpa using hsn)] at hp
      rcases List.mem_cons.mp hp with rfl | hp
      · exact hsn
      · exact hq p hp hsn

/-- The block with all blocks of its PDU marked, if `all` holds. -/
def markIf (all : Bool) (sn : ℕ) (p : AmRxBlock) : AmRxBlock := if all ∧ p.sn = sn then p.mark else p

@[simp] theorem markIf_pduInfo (all : Bool) (sn : ℕ) (p : AmRxBlock) : (p.markIf all sn).pduInfo = p.pduInfo := by
  rw [markIf]
  split_ifs <;> rfl

@[simp] theorem markIf_sn (all : Bool) (sn : ℕ) (p : AmRxBlock) : (p.markIf all sn).sn = p.sn :=
  congrArg AmPduInfo.sn (markIf_pduInfo all sn p)

theorem markIf_of_ne {all : Bool} (h : p.sn ≠ sn) : p.markIf all sn = p := if_neg fun hall ↦ h hall.2

theorem markIf_of_eq (h : p.sn = sn) : p.markIf true sn = p.mark := if_pos ⟨rfl, h⟩

theorem map_markIf_of_ne {all : Bool} {list : List AmRxBlock} (h : ∀ p ∈ list, p.sn ≠ sn) :
    list.map (markIf all sn) = list :=
  (List.map_congr_left fun p hp ↦ markIf_of_ne (h p hp)).trans (List.map_id _)

theorem map_markIf_of_eq {list : List AmRxBlock} (h : ∀ p ∈ list, p.sn = sn) :
    list.map (markIf true sn) = list.map mark := List.map_congr_left fun p hp ↦ markIf_of_eq (h p hp)

theorem markAllSegmentsReceived_eq (h : next.Pairwise fun p q ↦ p.sn ≠ sn → q.sn ≠ sn) :
    markAllSegmentsReceived sn next = next.map (markIf true sn) := by
  have hsplit := List.takeWhile_append_dropWhile (l := next) (p := fun p ↦ p.sn = sn)
  have htake (p : AmRxBlock) (hp : p ∈ next.takeWhile fun p ↦ p.sn = sn) : p.sn = sn := by
    simpa using List.mem_takeWhile_imp hp
  have hdrop (p : AmRxBlock) (hp : p ∈ next.dropWhile fun p ↦ p.sn = sn) : p.sn ≠ sn := sn_ne_of_mem_dropWhile h hp
  rw [markAllSegmentsReceived, ← map_markIf_of_eq htake]
  conv_rhs => rw [← hsplit, List.map_append, map_markIf_of_ne hdrop]

/-- All blocks of the PDU are marked, or nothing is. -/
theorem checkAllByteSegments_eq {after : List AmRxBlock}
    (hbefore : before.Pairwise fun p q ↦ q.sn ≠ tb.sn → p.sn ≠ tb.sn)
    (hafter : after.Pairwise fun p q ↦ p.sn ≠ tb.sn → q.sn ≠ tb.sn)
    (hwhole : tb.pduInfo.rf = false → ∀ p ∈ before ++ after, p.sn ≠ tb.sn) :
    ∃ all, checkAllByteSegments before tb after =
      (before.map (markIf all tb.sn), tb.markIf all tb.sn, after.map (markIf all tb.sn)) := by
  rw [checkAllByteSegments]
  split_ifs with hrf
  · refine ⟨true, ?_⟩
    rw [map_markIf_of_ne fun p hp ↦ hwhole hrf p (List.mem_append_left _ hp), markIf_of_eq rfl,
      map_markIf_of_ne fun p hp ↦ hwhole hrf p (List.mem_append_right _ hp)]
  dsimp only
  split_ifs
  · refine ⟨true, ?_⟩
    have hsplit : before.rdropWhile (fun p ↦ p.sn = tb.sn) ++ before.rtakeWhile (fun p ↦ p.sn = tb.sn) = before :=
      List.rdropWhile_append_rtakeWhile
    have hfront (p : AmRxBlock) (hp : p ∈ before.rdropWhile fun p ↦ p.sn = tb.sn) : p.sn ≠ tb.sn := by
      rw [List.rdropWhile, List.mem_reverse] at hp
      exact sn_ne_of_mem_dropWhile (List.pairwise_reverse.mpr hbefore) hp
    have hback (p : AmRxBlock) (hp : p ∈ before.rtakeWhile fun p ↦ p.sn = tb.sn) : p.sn = tb.sn := by
      simpa using List.mem_rtakeWhile_imp hp
    rw [markAllSegmentsReceived_eq hafter, markIf_of_eq rfl, ← map_markIf_of_eq hback]
    conv_rhs => rw [← hsplit, List.map_append, map_markIf_of_ne hfront]
  · refine ⟨false, ?_⟩
    have hid (p : AmRxBlock) : p.markIf false tb.sn = p := if_neg fun h ↦ Bool.noConfusion h.1
    rw [hid, List.map_congr_left fun p _ ↦ hid p, List.map_congr_left fun p _ ↦ hid p, List.map_id', List.map_id']

end AmRxBlock

namespace AmRxEntity

open AmRxBlock AmInsertion

variable {e : AmRxEntity} {p q tb x : AmRxBlock} {before after cursor kept post list : List AmRxBlock}
  {i : AmInsertion} {sn vrR : ℕ}

/-- The blocks of a list come in the order of their SNs, and those of a PDU are all marked or not. -/
structure SnSorted (vrR : ℕ) (list : List AmRxBlock) : Prop where
  sn_lt : ∀ p ∈ list, p.sn < 1024
  sorted : list.Pairwise fun p q ↦ amDiffSn p.sn vrR ≤ amDiffSn q.sn vrR
  uniform : ∀ p ∈ list, ∀ q ∈ list, p.sn = q.sn → p.allSegmentsReceived = q.allSegmentsReceived

theorem SnSorted.sublist (h : SnSorted vrR list) (hsub : cursor.Sublist list) : SnSorted vrR cursor where
  sn_lt p hp := h.sn_lt p (hsub.subset hp)
  sorted := h.sorted.sublist hsub
  uniform p hp q hq := h.uniform p (hsub.subset hp) q (hsub.subset hq)

theorem amDiffSn_inj (hvrR : vrR < 1024) {a b : ℕ} (ha : a < 1024) (hb : b < 1024)
    (h : amDiffSn a vrR = amDiffSn b vrR) : a = b := by
  rw [← snAt_amDiffSn hvrR ha, h, snAt_amDiffSn hvrR hb]

/-- A block is put at the place of its PDU. -/
theorem SnSorted.insert (h : SnSorted vrR (before ++ cursor)) (hx : x.sn < 1024)
    (hbefore : ∀ p ∈ before, amDiffSn p.sn vrR < amDiffSn x.sn vrR)
    (hcursor : ∀ p ∈ cursor, amDiffSn x.sn vrR ≤ amDiffSn p.sn vrR)
    (hunmarked : ∀ p ∈ cursor, p.sn = x.sn → p.allSegmentsReceived = false)
    (hxUnmarked : x.allSegmentsReceived = false) (hkept : ∀ p ∈ kept, p.sn = x.sn)
    (hsub : (kept ++ post).Sublist cursor) : SnSorted vrR ((before ++ kept) ++ x :: post) := by
  have hsub' : ((before ++ kept) ++ post).Sublist (before ++ cursor) := by
    rw [List.append_assoc]
    exact hsub.append_left _
  have hold := h.sublist hsub'
  have hpost (p : AmRxBlock) (hp : p ∈ post) : p ∈ cursor := hsub.subset (List.mem_append_right _ hp)
  have hmem (p : AmRxBlock) (hp : p ∈ (before ++ kept) ++ x :: post) : p = x ∨ p ∈ (before ++ kept) ++ post := by
    rcases List.mem_append.mp hp with hp | hp
    · exact .inr (List.mem_append_left _ hp)
    · rcases List.mem_cons.mp hp with rfl | hp
      · exact .inl rfl
      · exact .inr (List.mem_append_right _ hp)
  have hsame (p : AmRxBlock) (hp : p ∈ (before ++ kept) ++ post) (hsn : p.sn = x.sn) :
      p.allSegmentsReceived = false := by
    rcases List.mem_append.mp (hsub'.subset hp) with hp | hp
    · have hlt := hbefore p hp
      rw [hsn] at hlt
      exact absurd hlt (lt_irrefl _)
    · exact hunmarked p hp hsn
  refine ⟨fun p hp ↦ ?_, OrderedRanges.pairwise_insert hold.sorted (fun p hp ↦ ?_) fun p hp ↦ ?_,
    fun p hp q hq hsn ↦ ?_⟩
  · rcases hmem p hp with rfl | hp
    · exact hx
    · exact hold.sn_lt p hp
  · rcases List.mem_append.mp hp with hp | hp
    · exact (hbefore p hp).le
    · rw [hkept p hp]
  · exact hcursor p (hpost p hp)
  · rcases hmem p hp with hpx | hpOld <;> rcases hmem q hq with hqx | hqOld
    · rw [hpx, hqx]
    · rw [hpx, hxUnmarked, hsame q hqOld (hsn.symm.trans (congrArg AmRxBlock.sn hpx))]
    · rw [hqx, hxUnmarked, hsame p hpOld (hsn.trans (congrArg AmRxBlock.sn hqx))]
    · exact hold.uniform p hpOld q hqOld hsn


theorem into_of_handlePduSegment (hsplit : e.split tb.sn = (before, cursor))
    (h : e.rxListHandlePduSegment tb = some i) : Into tb before cursor i := by
  have hlink (h : tb.link before cursor = some i) : Into tb before cursor i :=
    into_of_link_before (List.Sublist.refl _) h
  rw [rxListHandlePduSegment, hsplit] at h
  dsimp only at h
  cases cursor with
  | nil => exact hlink h
  | cons first next =>
    dsimp only at h
    split_ifs at h with hsn
    · exact hlink h
    · cases h
      exact .refused _
    · cases h
      exact .refused _
    · exact into_of_insertBehind (not_not.mp hsn) h
    · exact hlink h
    · exact into_of_insertBefore h
    · exact into_of_insertBehind (not_not.mp hsn) h

/-- The insertion of a whole PDU leaves no segment of it behind the new block. -/
theorem into_of_handlePdu (hsplit : e.split tb.sn = (before, cursor))
    (h : e.rxListHandlePdu tb = some i) : Into tb before cursor i := by
  rw [rxListHandlePdu, hsplit] at h
  dsimp only at h
  cases cursor with
  | nil => exact into_of_link_before (List.Sublist.refl _) h
  | cons first next =>
    dsimp only at h
    obtain ⟨hspan, hspanSn⟩ := spanContiguous_spec id tb.sn 0 (first :: next)
    generalize spanContiguous id tb.sn 0 (first :: next) = span at *
    obtain ⟨contiguousEnd, contiguous, behind⟩ := span
    dsimp only at h hspan hspanSn
    split_ifs at h
    · exact into_of_link_before (List.Sublist.refl _) h
    · cases h
      exact .refused _
    · exact into_of_link_before (List.dropWhile_sublist _) h
    · cases h
      refine .copied hspanSn ?_ rfl rfl
      rw [← hspan]
      exact (List.dropWhile_sublist _).append_left _

/-- `split` finds the place of an SN. -/
theorem split_spec (h : SnSorted e.vrR e.receiverBuffer) (sn : ℕ) :
    (e.split sn).1 ++ (e.split sn).2 = e.receiverBuffer ∧
      (∀ p ∈ (e.split sn).1, amDiffSn p.sn e.vrR < amDiffSn sn e.vrR) ∧
      ∀ p ∈ (e.split sn).2, amDiffSn sn e.vrR ≤ amDiffSn p.sn e.vrR := by
  rw [split, List.span_eq_takeWhile_dropWhile]
  refine ⟨List.takeWhile_append_dropWhile, fun p hp ↦ ?_, fun p hp ↦ ?_⟩
  · have hlt := List.mem_takeWhile_imp hp
    rw [decide_eq_true_iff] at hlt
    exact hlt
  · have hsorted := h.sorted
    dsimp only at hp
    generalize e.receiverBuffer = list at hsorted hp
    induction list with
    | nil => cases hp
    | cons q list ih =>
      obtain ⟨hq, hsorted⟩ := List.pairwise_cons.mp hsorted
      by_cases hlt : e.offset q.sn < e.offset sn
      · rw [List.dropWhile_cons_of_pos (by simpa using hlt)] at hp
        exact ih hsorted hp
      · rw [List.dropWhile_cons_of_neg (by simpa using hlt)] at hp
        rcases List.mem_cons.mp hp with rfl | hp
        · exact not_lt.mp hlt
        · exact (not_lt.mp hlt).trans (hq p hp)

/-- What the insertion of a block does to the order of the list. -/
inductive Arrived (e : AmRxEntity) (tb : AmRxBlock) : AmInsertion → Prop
  | refused (status : AmRxPduStatus) : Arrived e tb (.refused status)
  | placed {before after : List AmRxBlock} (hsorted : SnSorted e.vrR (before ++ tb :: after))
      (hold : ∀ p ∈ before ++ after, p ∈ e.receiverBuffer)
      (hwhole : tb.pduInfo.rf = false → ∀ p ∈ before ++ after, p.sn ≠ tb.sn) :
      Arrived e tb (.placed before tb after)
  | copied {list : List AmRxBlock} (hsorted : SnSorted e.vrR list)
      (hold : ∀ p ∈ list, p.sn ≠ tb.sn → p ∈ e.receiverBuffer)
      (hunmarked : ∀ p ∈ list, p.sn = tb.sn → p.allSegmentsReceived = false) (hmem : ∃ p ∈ list, p.sn = tb.sn)
      (hwhole : tb.pduInfo.rf = false → tb.sn = e.vrR ∧ ∃ head ∈ list.head?, head.sn = e.vrR ∧
        head.pduInfo.rf = true ∧ head.allSegmentsReceived = false) :
      Arrived e tb (.copied list)

/-- An insertion at the place of the PDU, when no block of it is marked. -/
theorem arrived_of_into (h : SnSorted e.vrR e.receiverBuffer) (hvrR : e.vrR < 1024) (htb : tb.sn < 1024)
    (hnew : tb.allSegmentsReceived = false) (hsplit : e.split tb.sn = (before, cursor))
    (hunmarked : ∀ p ∈ cursor.head?, p.sn = tb.sn → p.allSegmentsReceived = false)
    (hwhole : ∀ kept post, i = .placed (before ++ kept) tb post → tb.pduInfo.rf = false →
      kept = [] ∧ ∀ p ∈ post.head?, p.sn ≠ tb.sn)
    (hcopied : ∀ list, i = .copied list → tb.pduInfo.rf = false → tb.sn = e.vrR ∧
      ∃ head ∈ list.head?, head.sn = e.vrR ∧ head.pduInfo.rf = true ∧ head.allSegmentsReceived = false)
    (hinto : Into tb before cursor i) : Arrived e tb i := by
  obtain ⟨hlist, hbefore, hcursor⟩ := split_spec h tb.sn
  rw [hsplit] at hlist hbefore hcursor
  dsimp only at hlist hbefore hcursor
  rw [← hlist] at h
  have hcursorSorted := h.sublist (List.sublist_append_right before cursor)
  have hnone (p : AmRxBlock) (hp : p ∈ cursor) (hsn : p.sn = tb.sn) : p.allSegmentsReceived = false := by
    cases cursor with
    | nil => cases hp
    | cons first next =>
      have hle : amDiffSn first.sn e.vrR ≤ amDiffSn p.sn e.vrR := by
        rcases List.mem_cons.mp hp with rfl | hp
        · exact le_rfl
        · exact (List.pairwise_cons.mp hcursorSorted.sorted).1 p hp
      have hge := hcursor first List.mem_cons_self
      have hfirst : first.sn = tb.sn :=
        amDiffSn_inj hvrR (hcursorSorted.sn_lt first List.mem_cons_self) htb (by rw [hsn] at hle; omega)
      rw [hcursorSorted.uniform p hp first List.mem_cons_self (hsn.trans hfirst.symm)]
      exact hunmarked first rfl hfirst
  have hsubset {kept post : List AmRxBlock} (hsub : (kept ++ post).Sublist cursor) (p : AmRxBlock)
      (hp : p ∈ (before ++ kept) ++ post) : p ∈ before ++ cursor := by
    rw [List.append_assoc] at hp
    exact (hsub.append_left before).subset hp
  cases hinto with
  | refused status => exact .refused status
  | @placed kept post hkept hsub =>
    refine .placed (h.insert htb hbefore hcursor hnone hnew hkept hsub) (fun p hp ↦ ?_) fun hrf p hp ↦ ?_
    · rw [← hlist]
      exact hsubset hsub p hp
    · obtain ⟨rfl, hhead⟩ := hwhole _ _ rfl hrf
      rw [List.append_nil] at hp
      rcases List.mem_append.mp hp with hp | hp
      · intro hsn
        have hlt := hbefore p hp
        rw [hsn] at hlt
        exact lt_irrefl _ hlt
      · rw [List.nil_append] at hsub
        have hpost := hcursorSorted.sublist hsub
        cases post with
        | nil => cases hp
        | cons q post =>
          have hle : amDiffSn q.sn e.vrR ≤ amDiffSn p.sn e.vrR := by
            rcases List.mem_cons.mp hp with rfl | hp
            · exact le_rfl
            · exact (List.pairwise_cons.mp hpost.sorted).1 p hp
          have hge := hcursor q (hsub.subset List.mem_cons_self)
          intro hsn
          refine hhead q rfl (amDiffSn_inj hvrR (hpost.sn_lt q List.mem_cons_self) htb ?_)
          rw [hsn] at hle
          omega
  | @copied kept post x hkept hsub hsn hx =>
    have hsorted := h.insert (x := x) (by rw [hsn]; exact htb) (by rw [hsn]; exact hbefore)
      (by rw [hsn]; exact hcursor) (by rw [hsn]; exact hnone) hx (by rw [hsn]; exact hkept) hsub
    rw [List.append_assoc] at hsorted
    have hmem (p : AmRxBlock) (hp : p ∈ before ++ (kept ++ x :: post)) :
        p = x ∨ p ∈ (before ++ kept) ++ post := by
      rw [← List.append_assoc] at hp
      rcases List.mem_append.mp hp with hp | hp
      · exact .inr (List.mem_append_left _ hp)
      · rcases List.mem_cons.mp hp with rfl | hp
        · exact .inl rfl
        · exact .inr (List.mem_append_right _ hp)
    refine .copied hsorted (fun p hp hne ↦ ?_) (fun p hp heq ↦ ?_) ⟨x, by simp, hsn⟩ fun hrf ↦ hcopied _ rfl hrf
    · rcases hmem p hp with rfl | hp
      · exact absurd hsn hne
      · rw [← hlist]
        exact hsubset hsub p hp
    · rcases hmem p hp with rfl | hp
      · exact hx
      · rcases List.mem_append.mp (hsubset hsub p hp) with hp | hp
        · have hlt := hbefore p hp
          rw [heq] at hlt
          exact absurd hlt (lt_irrefl _)
        · exact hnone p hp heq

theorem arrived_of_handlePduSegment (h : SnSorted e.vrR e.receiverBuffer) (hvrR : e.vrR < 1024)
    (htb : tb.sn < 1024) (hnew : tb.allSegmentsReceived = false) (hrf : tb.pduInfo.rf = true)
    (hi : e.rxListHandlePduSegment tb = some i) : Arrived e tb i := by
  cases hsplit : e.split tb.sn with
  | mk before cursor =>
    by_cases hmarked : ∃ p ∈ cursor.head?, p.sn = tb.sn ∧ p.allSegmentsReceived = true
    · obtain ⟨first, hfirst, hsn, hall⟩ := hmarked
      rw [rxListHandlePduSegment, hsplit] at hi
      cases cursor with
      | nil => cases hfirst
      | cons p next =>
        cases hfirst
        dsimp only at hi
        rw [if_neg (not_not.mpr hsn), if_pos hall] at hi
        cases hi
        exact .refused _
    · refine arrived_of_into h hvrR htb hnew hsplit (fun p hp hsn ↦ ?_) (fun _ _ _ hwhole ↦ ?_)
        (fun _ _ hwhole ↦ ?_) (into_of_handlePduSegment hsplit hi)
      · exact Bool.eq_false_iff.mpr fun hall ↦ hmarked ⟨p, hp, hsn, hall⟩
      · rw [hrf] at hwhole
        cases hwhole
      · rw [hrf] at hwhole
        cases hwhole

theorem placed_of_link (h : tb.link before after = some i) : i = .placed before tb after := by
  rw [link] at h
  split_ifs at h
  exact (Option.some.inj h).symm

theorem arrived_of_handlePdu (h : SnSorted e.vrR e.receiverBuffer) (hvrR : e.vrR < 1024)
    (htb : tb.sn < 1024) (hnew : tb.allSegmentsReceived = false)
    (hi : e.rxListHandlePdu tb = some i) : Arrived e tb i := by
  cases hsplit : e.split tb.sn with
  | mk before cursor =>
    have hinto := into_of_handlePdu hsplit hi
    have hplaced {after : List AmRxBlock} (hi : i = .placed before tb after)
        (hafter : ∀ p ∈ after.head?, p.sn ≠ tb.sn)
        (hunmarked : ∀ p ∈ cursor.head?, p.sn = tb.sn → p.allSegmentsReceived = false) : Arrived e tb i := by
      refine arrived_of_into h hvrR htb hnew hsplit hunmarked (fun kept post heq _ ↦ ?_) (fun _ heq ↦ ?_) hinto
      · rw [hi] at heq
        injection heq with hbefore _ hpost
        exact ⟨List.append_right_eq_self.mp hbefore.symm, hpost ▸ hafter⟩
      · rw [hi] at heq
        cases heq
    rw [rxListHandlePdu, hsplit] at hi
    dsimp only at hi
    cases cursor with
    | nil => exact hplaced (placed_of_link hi) (fun p hp ↦ by cases hp) fun p hp ↦ by cases hp
    | cons first next =>
      dsimp only at hi
      by_cases hsn : first.sn = tb.sn
      · rw [if_neg (not_not.mpr hsn)] at hi
        by_cases hall : first.allSegmentsReceived = true
        · rw [if_pos hall] at hi
          cases hi
          exact .refused _
        rw [if_neg hall] at hi
        have hunmarked (p : AmRxBlock) (hp : p ∈ (first :: next).head?) (_ : p.sn = tb.sn) :
            p.allSegmentsReceived = false := by
          cases hp
          exact Bool.eq_false_iff.mpr hall
        by_cases hreplaced : tb.sn ≠ e.vrR ∨ first.so ≠ 0
        · rw [if_pos hreplaced] at hi
          refine hplaced (placed_of_link hi) (fun p hp ↦ ?_) hunmarked
          have hdrop := List.head?_dropWhile_not (fun p : AmRxBlock ↦ decide (p.sn = tb.sn)) (first :: next)
          rw [Option.mem_def.mp hp] at hdrop
          simpa using hdrop
        · rw [if_neg hreplaced] at hi
          obtain ⟨hvr, hso⟩ := not_or.mp hreplaced
          rw [not_not] at hvr hso
          have hbefore : before = [] := by
            obtain ⟨-, hlt, -⟩ := split_spec h tb.sn
            rw [hsplit] at hlt
            refine List.eq_nil_iff_forall_not_mem.mpr fun p hp ↦ ?_
            have hp := hlt p hp
            rw [hvr, amDiffSn_eq e.vrR e.vrR] at hp
            omega
          split_ifs at hi with hrf
          rw [spanContiguous, if_pos ⟨hsn, hso⟩, hbefore] at hi
          refine arrived_of_into h hvrR htb hnew hsplit hunmarked (fun _ _ heq _ ↦ ?_) (fun list heq _ ↦ ?_) hinto
          · rw [heq] at hi
            cases hi
          · rw [heq] at hi
            cases hi
            exact ⟨hvr, first, rfl, hsn.trans hvr, hrf, Bool.eq_false_iff.mpr hall⟩
      · rw [if_pos hsn] at hi
        refine hplaced (placed_of_link hi) (fun p hp ↦ ?_) fun p hp heq ↦ ?_
        · cases hp
          exact hsn
        · cases hp
          exact absurd heq hsn

/-- A received block in the list keeps the order. -/
theorem arrived (h : SnSorted e.vrR e.receiverBuffer) (hvrR : e.vrR < 1024) (htb : tb.sn < 1024)
    (hnew : tb.allSegmentsReceived = false) (hi : e.rxListCheckDuplicateInsertPdu tb = some i) :
    Arrived e { tb with segmentReassembled := .no } i := by
  rw [rxListCheckDuplicateInsertPdu] at hi
  dsimp only at hi
  split_ifs at hi with hnil hrf
  · cases hi
    refine .placed ⟨fun p hp ↦ ?_, List.pairwise_singleton _ _, fun p hp q hq _ ↦ ?_⟩ (fun p hp ↦ by cases hp)
      fun _ p hp ↦ by cases hp
    · rw [List.mem_singleton.mp hp]
      exact htb
    · rw [List.mem_singleton.mp hp, List.mem_singleton.mp hq]
  · exact arrived_of_handlePduSegment h hvrR htb hnew hrf hi
  · exact arrived_of_handlePdu h hvrR htb hnew hi

/-- Marking a PDU keeps the order too. -/
theorem SnSorted.markIf (h : SnSorted vrR list) (all : Bool) (sn : ℕ) : SnSorted vrR (list.map (markIf all sn)) where
  sn_lt := List.forall_mem_map.mpr fun p hp ↦ by
    rw [markIf_sn]
    exact h.sn_lt p hp
  sorted := List.pairwise_map.mpr (h.sorted.imp fun {p q} hle ↦ by
    rw [markIf_sn, markIf_sn]
    exact hle)
  uniform := List.forall_mem_map.mpr fun p hp ↦ List.forall_mem_map.mpr fun q hq hsn ↦ by
    rw [markIf_sn, markIf_sn] at hsn
    rw [AmRxBlock.markIf, AmRxBlock.markIf, hsn]
    split_ifs
    · rfl
    · exact h.uniform p hp q hq hsn

/-- The check of a block in the list marks its PDU, or nothing. -/
theorem SnSorted.check (h : SnSorted vrR (before ++ tb :: after)) (hvrR : vrR < 1024)
    (hwhole : tb.pduInfo.rf = false → ∀ p ∈ before ++ after, p.sn ≠ tb.sn) :
    ∃ all, checkAllByteSegments before tb after =
      (before.map (AmRxBlock.markIf all tb.sn), tb.markIf all tb.sn, after.map (AmRxBlock.markIf all tb.sn)) := by
  have htb : tb.sn < 1024 := h.sn_lt tb (List.mem_append_right _ List.mem_cons_self)
  obtain ⟨hbefore, htail, hcross⟩ := List.pairwise_append.mp h.sorted
  obtain ⟨hnext, hafter⟩ := List.pairwise_cons.mp htail
  refine checkAllByteSegments_eq (hbefore.imp_of_mem fun {p q} hp hq hle hne heq ↦ ?_)
    (hafter.imp_of_mem fun {p q} hp hq hle hne heq ↦ ?_) hwhole
  · have hqle := hcross q hq tb List.mem_cons_self
    rw [heq] at hle
    exact hne (amDiffSn_inj hvrR (h.sn_lt q (List.mem_append_left _ hq)) htb (by omega))
  · have hple := hnext p hp
    rw [heq] at hle
    exact hne (amDiffSn_inj hvrR (h.sn_lt p (List.mem_append_right _ (List.mem_cons_of_mem _ hp))) htb (by omega))

end AmRxEntity

end EdgeSlice.Rlc
