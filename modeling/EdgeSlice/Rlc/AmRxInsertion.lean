import EdgeSlice.OrderedRanges
import EdgeSlice.Rlc.AmRxList
import EdgeSlice.Rlc.AmStatusCoverage

namespace EdgeSlice.Rlc

namespace AmRxBlock

variable {content : ℕ → Bytes} {p q tb : AmRxBlock} {b : ℕ}

/-- The block holds the byte `c.2` of the PDU with SN `c.1`. -/
def HasByte (p : AmRxBlock) (c : ℕ × ℕ) : Prop := p.sn = c.1 ∧ p.Holds c.2

/-- The bytes of the block are those of its PDU. -/
def Carries (content : ℕ → Bytes) (p : AmRxBlock) : Prop :=
  p.data = ((content p.sn).drop p.pduInfo.so).take p.pduInfo.payloadSize.toNat

/-- A PDU, or a segment of one. -/
structure PartOf (content : ℕ → Bytes) (p : AmRxBlock) : Prop where
  sn_lt : p.sn < 1024
  nonempty : p.so < p.stop
  stop_le : p.stop ≤ (content p.sn).length
  whole : p.pduInfo.rf = false → p.so = 0 ∧ p.stop = (content p.sn).length
  lsf_iff : p.pduInfo.rf → (p.pduInfo.lsf ↔ p.stop = (content p.sn).length)
  carries : p.Carries content

/-- A segment that holds a part of one SDU, as it has been received. -/
def received (content : ℕ → Bytes) (sn so n : ℕ) : AmRxBlock where
  pduInfo :=
    { dC := true
      rf := true
      p := false
      fi := 0
      e := false
      sn := sn
      lsf := so + n = (content sn).length
      so := so
      liList := []
      hiddenSize := n
      payload := rlcAmPduSegmentHeaderMinSize
      payloadSize := n
      headerSize := rlcAmPduSegmentHeaderMinSize }
  allSegmentsReceived := false
  segmentReassembled := .no
  data := ((content sn).drop so).take n

theorem received_partOf {sn so n : ℕ} (hsn : sn < 1024) (hn : 0 < n) (hle : so + n ≤ (content sn).length) :
    (received content sn so n).PartOf content where
  sn_lt := hsn
  nonempty := by
    change (so : ℤ) < so + n
    omega
  stop_le := by
    change (so : ℤ) + n ≤ ((content sn).length : ℤ)
    omega
  whole hrf := Bool.noConfusion hrf
  lsf_iff _ := by
    change decide (so + n = (content sn).length) = true ↔ (so : ℤ) + n = ((content sn).length : ℤ)
    rw [decide_eq_true_iff]
    omega
  carries := rfl

theorem so_nonneg (p : AmRxBlock) : 0 ≤ p.so := Int.natCast_nonneg _

theorem payloadSize_eq (p : AmRxBlock) : p.pduInfo.payloadSize = p.stop - p.so := by
  rw [stop, so]
  omega

/-- A segment that is made of a part of a block. -/
theorem createNewSegment_spec (htb : tb.PartOf content) (hlen : (content tb.sn).length ≤ rlcAmStatusPduSoEndAllBytes)
    {soOffset : ℕ} {n : ℤ} (hn : 0 ≤ n) (hle : tb.so + soOffset + n ≤ tb.stop) :
    (tb.createNewSegmentFromPdu soOffset n).sn = tb.sn ∧
      (tb.createNewSegmentFromPdu soOffset n).so = tb.so + soOffset ∧
      (tb.createNewSegmentFromPdu soOffset n).stop = tb.so + soOffset + n ∧
      (tb.createNewSegmentFromPdu soOffset n).Carries content := by
  have hstop := htb.stop_le
  have hso := tb.so_nonneg
  rw [rlcAmStatusPduSoEndAllBytes] at hlen
  have hsoEq : tb.so = tb.pduInfo.so := rfl
  have hoffset : (tb.pduInfo.so + soOffset) % 2 ^ 15 = tb.pduInfo.so + soOffset :=
    Nat.mod_eq_of_lt (by omega)
  have hint : int16 n = n := by
    rw [int16]
    omega
  have hnewSo : (tb.createNewSegmentFromPdu soOffset n).pduInfo.so = tb.pduInfo.so + soOffset := hoffset
  have hnewSize : (tb.createNewSegmentFromPdu soOffset n).pduInfo.payloadSize = n := hint
  refine ⟨rfl, ?_, ?_, ?_⟩
  · rw [so, hnewSo, so]
    omega
  · rw [stop, hnewSo, hnewSize, so]
    omega
  · have hdata : (tb.createNewSegmentFromPdu soOffset n).data = (tb.data.drop soOffset).take n.toNat := rfl
    have hsn : (tb.createNewSegmentFromPdu soOffset n).sn = tb.sn := rfl
    rw [Carries, hdata, hsn, hnewSo, hnewSize, htb.carries, List.drop_take, List.drop_drop, List.take_take,
      payloadSize_eq]
    congr 1
    omega

end AmRxBlock

namespace AmInsertion

/-- The receive list afterwards. -/
def list (receiverBuffer : List AmRxBlock) : AmInsertion → List AmRxBlock
  | placed before tb after => before ++ tb :: after
  | copied list => list
  | refused _ => receiverBuffer

end AmInsertion

namespace AmRxEntity

open AmRxBlock OrderedRanges

variable {content : ℕ → Bytes} {e : AmRxEntity} {p q tb first : AmRxBlock} {sn : ℕ}
  {before same after next : List AmRxBlock}

/-- What STATUS PDUs are built from. -/
def toReceiver (nbBytesRequestedByMac : ℕ) (e : AmRxEntity) : AmReceiver :=
  ⟨e.receiverBuffer.map (·.toAmRxPdu), e.vrR, e.vrMs, nbBytesRequestedByMac⟩

/-- The order of the receive list. -/
def Before (e : AmRxEntity) (p q : AmRxBlock) : Prop :=
  e.offset p.sn < e.offset q.sn ∨ p.sn = q.sn ∧ p.stop ≤ q.so

/-- The byte `c.2` of the PDU with SN `c.1` is in the receive list. -/
def HasByte (e : AmRxEntity) (c : ℕ × ℕ) : Prop := ∃ p ∈ e.receiverBuffer, p.HasByte c

/-- A receive list of PDUs with the payload `content`. -/
structure Ordered (content : ℕ → Bytes) (e : AmRxEntity) : Prop where
  vrR_lt : e.vrR < 1024
  content_le : ∀ sn, (content sn).length ≤ rlcAmStatusPduSoEndAllBytes
  partOf : ∀ p ∈ e.receiverBuffer, p.PartOf content
  sorted : e.receiverBuffer.Pairwise e.Before
  /-- Only complete PDUs are marked, and whole ones are. -/
  complete : ∀ p ∈ e.receiverBuffer, p.allSegmentsReceived → ∀ b < (content p.sn).length, e.HasByte (p.sn, b)
  marked : ∀ p ∈ e.receiverBuffer, p.pduInfo.rf = false → p.allSegmentsReceived

/-- The stored segments of a PDU. -/
def segments (sn : ℕ) (e : AmRxEntity) : List AmRxBlock := e.receiverBuffer.filter fun p ↦ p.sn = sn

/-- The receive list as reports see it. -/
theorem Ordered.listed (he : e.Ordered content) (n : ℕ) :
    (e.toReceiver n).Listed (fun sn ↦ (content sn).length) (e.toReceiver n).receiverBuffer where
  stored := by
    refine List.forall_mem_map.mpr fun p hp ↦ ?_
    have hpart := he.partOf p hp
    refine ⟨hpart.sn_lt, ?_, hpart.stop_le, fun hrf ↦ ?_, hpart.lsf_iff⟩
    · have hlt := hpart.nonempty
      rw [so, stop] at hlt
      omega
    · obtain ⟨hso, hstop⟩ := hpart.whole hrf
      rw [so] at hso
      rw [stop, sn] at hstop
      exact ⟨he.marked p hp hrf, by omega, by omega⟩
  sorted := List.pairwise_map.mpr he.sorted

/-- Where the segments of a PDU stand in the receive list. -/
structure Split (e : AmRxEntity) (sn : ℕ) (before same after : List AmRxBlock) : Prop where
  receiverBuffer_eq : e.receiverBuffer = before ++ (same ++ after)
  offset_lt : ∀ p ∈ before, e.offset p.sn < e.offset sn
  sn_eq : ∀ p ∈ same, p.sn = sn
  lt_offset : ∀ p ∈ after, e.offset sn < e.offset p.sn

theorem Split.sn_ne (h : e.Split sn before same after) (hp : p ∈ after) : p.sn ≠ sn := by
  rintro rfl
  exact lt_irrefl _ (h.lt_offset p hp)

theorem Split.segments_eq (h : e.Split sn before same after) : e.segments sn = same := by
  have hbefore : before.filter (fun p ↦ p.sn = sn) = [] := by
    refine List.filter_eq_nil_iff.mpr fun p hp ↦ ?_
    rw [decide_eq_true_iff]
    rintro rfl
    exact lt_irrefl _ (h.offset_lt p hp)
  have hafter : after.filter (fun p ↦ p.sn = sn) = [] := by
    refine List.filter_eq_nil_iff.mpr fun p hp ↦ ?_
    rw [decide_eq_true_iff]
    exact h.sn_ne hp
  have hsame : same.filter (fun p ↦ p.sn = sn) = same := by
    refine List.filter_eq_self.mpr fun p hp ↦ ?_
    rw [decide_eq_true_iff]
    exact h.sn_eq p hp
  rw [segments, h.receiverBuffer_eq, List.filter_append, List.filter_append, hbefore, hsame, hafter,
    List.nil_append, List.append_nil]

theorem offset_inj (hvrR : e.vrR < 1024) (hp : p.sn < 1024) (hsn : sn < 1024) (h : e.offset p.sn = e.offset sn) :
    p.sn = sn := by
  rw [← snAt_amDiffSn hvrR hp, ← snAt_amDiffSn hvrR hsn]
  exact congrArg (snAt e.vrR) h

theorem Before.offset_le (h : e.Before p q) : e.offset p.sn ≤ e.offset q.sn := by
  rcases h with hlt | ⟨heq, -⟩
  · exact hlt.le
  · rw [heq]

/-- In a sorted list the blocks before an SN come first. -/
theorem offset_le_of_mem_dropWhile {list : List AmRxBlock} (hsorted : list.Pairwise e.Before) {k : ℕ}
    (hp : p ∈ list.dropWhile fun p ↦ e.offset p.sn < k) : k ≤ e.offset p.sn := by
  induction list with
  | nil => cases hp
  | cons q list ih =>
    obtain ⟨hfirst, hsorted⟩ := List.pairwise_cons.mp hsorted
    by_cases hq : e.offset q.sn < k
    · rw [List.dropWhile_cons_of_pos (by simpa using hq)] at hp
      exact ih hsorted hp
    · rw [List.dropWhile_cons_of_neg (by simpa using hq)] at hp
      rcases List.mem_cons.mp hp with rfl | hp
      · exact not_lt.mp hq
      · exact (not_lt.mp hq).trans (hfirst p hp).offset_le

/-- What `split` gives. -/
theorem Ordered.split_eq (he : e.Ordered content) (hsn : sn < 1024) : ∃ before same after,
    e.split sn = (before, same ++ after) ∧ e.Split sn before same after := by
  have hsplit := List.takeWhile_append_dropWhile (l := e.receiverBuffer) (p := fun p ↦ e.offset p.sn < e.offset sn)
  have hlt (p : AmRxBlock) (hp : p ∈ e.receiverBuffer.takeWhile fun p ↦ e.offset p.sn < e.offset sn) :
      e.offset p.sn < e.offset sn := by
    have h := List.mem_takeWhile_imp hp
    simpa using h
  have hge (p : AmRxBlock) (hp : p ∈ e.receiverBuffer.dropWhile fun p ↦ e.offset p.sn < e.offset sn) :
      e.offset sn ≤ e.offset p.sn := offset_le_of_mem_dropWhile he.sorted hp
  have hpart (p : AmRxBlock) (hp : p ∈ e.receiverBuffer.dropWhile fun p ↦ e.offset p.sn < e.offset sn) :=
    he.partOf p ((List.dropWhile_sublist _).subset hp)
  have hsorted := he.sorted.sublist (List.dropWhile_sublist fun p ↦ e.offset p.sn < e.offset sn)
  rw [split, List.span_eq_takeWhile_dropWhile]
  generalize e.receiverBuffer.takeWhile (fun p ↦ e.offset p.sn < e.offset sn) = before at *
  generalize e.receiverBuffer.dropWhile (fun p ↦ e.offset p.sn < e.offset sn) = rest at *
  have hrest := List.takeWhile_append_dropWhile (l := rest) (p := fun p ↦ e.offset p.sn < e.offset sn + 1)
  refine ⟨before, _, _, by rw [hrest], ?_, hlt, fun p hp ↦ ?_, fun p hp ↦ ?_⟩
  · rw [hrest, hsplit]
  · have hmem := (List.takeWhile_sublist _).subset hp
    have hle := hge p hmem
    have hlt := List.mem_takeWhile_imp hp
    rw [decide_eq_true_iff] at hlt
    exact offset_inj he.vrR_lt (hpart p hmem).sn_lt hsn (by omega)
  · have hle := offset_le_of_mem_dropWhile hsorted hp
    omega

/-- The segments of a PDU are disjoint ranges. -/
theorem Split.ordered (he : e.Ordered content) (h : e.Split sn before same after) :
    OrderedRanges.Ordered so stop same where
  nonempty p hp := by
    refine (he.partOf p ?_).nonempty
    rw [h.receiverBuffer_eq]
    exact List.mem_append_right _ (List.mem_append_left _ hp)
  disjoint := by
    have hsorted := he.sorted
    rw [h.receiverBuffer_eq] at hsorted
    have hsame := (List.pairwise_append.mp (List.pairwise_append.mp hsorted).2.1).1
    refine hsame.imp_of_mem fun {p q} hp hq hbefore ↦ ?_
    rcases hbefore with hlt | ⟨-, hle⟩
    · rw [h.sn_eq p hp, h.sn_eq q hq] at hlt
      exact absurd hlt (lt_irrefl _)
    · exact hle

/-- A loop over the segments of a PDU stops at the PDUs behind it. -/
theorem takeWhile_same (hsame : ∀ p ∈ same, p.sn = sn) (hafter : ∀ p ∈ after, p.sn ≠ sn) (P : AmRxBlock → Prop)
    [DecidablePred P] :
    (same ++ after).takeWhile (fun p ↦ p.sn = sn ∧ P p) = same.takeWhile fun p ↦ P p := by
  induction same with
  | nil =>
    cases after with
    | nil => rfl
    | cons p after =>
      have hne := hafter p List.mem_cons_self
      exact List.takeWhile_cons_of_neg (by simp [hne])
  | cons p same ih =>
    obtain ⟨hp, hsame⟩ := List.forall_mem_cons.mp hsame
    by_cases hP : P p
    · rw [List.cons_append, List.takeWhile_cons_of_pos (by simp [hp, hP]), ih hsame,
        List.takeWhile_cons_of_pos (by simp [hP])]
    · rw [List.cons_append, List.takeWhile_cons_of_neg (by simp [hP]), List.takeWhile_cons_of_neg (by simp [hP])]

theorem dropWhile_same (hsame : ∀ p ∈ same, p.sn = sn) (hafter : ∀ p ∈ after, p.sn ≠ sn) (P : AmRxBlock → Prop)
    [DecidablePred P] :
    (same ++ after).dropWhile (fun p ↦ p.sn = sn ∧ P p) = same.dropWhile (fun p ↦ P p) ++ after := by
  induction same with
  | nil =>
    cases after with
    | nil => rfl
    | cons p after =>
      have hne := hafter p List.mem_cons_self
      exact List.dropWhile_cons_of_neg (by simp [hne])
  | cons p same ih =>
    obtain ⟨hp, hsame⟩ := List.forall_mem_cons.mp hsame
    by_cases hP : P p
    · rw [List.cons_append, List.dropWhile_cons_of_pos (by simp [hp, hP]), ih hsame,
        List.dropWhile_cons_of_pos (by simp [hP])]
    · rw [List.cons_append, List.dropWhile_cons_of_neg (by simp [hP]), List.dropWhile_cons_of_neg (by simp [hP]),
        List.cons_append]

theorem spanContiguous_same {wrap : ℤ → ℤ} {a : ℤ} (hsame : ∀ p ∈ same, p.sn = sn)
    (hafter : ∀ p ∈ after, p.sn ≠ sn) (hwrap : ∀ p ∈ same, wrap p.stop = p.stop) :
    spanContiguous wrap sn a (same ++ after) = (rowStop so stop a same, row so stop a same,
      same.drop (row so stop a same).length ++ after) := by
  induction same generalizing a with
  | nil =>
    cases after with
    | nil => rfl
    | cons p after =>
      have hne := hafter p List.mem_cons_self
      rw [List.nil_append, spanContiguous, if_neg fun h ↦ hne h.1]
      rfl
  | cons p same ih =>
    obtain ⟨hp, hsame⟩ := List.forall_mem_cons.mp hsame
    obtain ⟨hw, hwrap⟩ := List.forall_mem_cons.mp hwrap
    rw [List.cons_append, spanContiguous, rowStop, row]
    by_cases ha : p.so = a
    · have hstop : a + p.pduInfo.payloadSize = p.stop := by
        rw [payloadSize_eq]
        omega
      rw [if_pos ⟨hp, ha⟩, if_pos ha, if_pos ha, hstop, hw, ih hsame hwrap]
      rfl
    · rw [if_neg fun h ↦ ha h.2, if_neg ha, if_neg ha]
      rfl

/-- A receive list that holds what was held before, and the received block. -/
structure Merged (content : ℕ → Bytes) (e : AmRxEntity) (tb : AmRxBlock) (list : List AmRxBlock) : Prop where
  sorted : list.Pairwise e.Before
  carries : ∀ p ∈ list, p.Carries content
  hasByte_iff : ∀ c, (∃ p ∈ list, p.HasByte c) ↔ e.HasByte c ∨ tb.HasByte c

/-- The segments `mid` are replaced by a part of the received block. -/
theorem Split.merged (he : e.Ordered content) {pre mid post : List AmRxBlock} {x : AmRxBlock}
    (h : e.Split tb.sn before (pre ++ (mid ++ post)) after) (hx : x.sn = tb.sn) (hcarries : x.Carries content)
    (hso : tb.so ≤ x.so) (hstop : x.stop ≤ tb.stop) (hpre : ∀ p ∈ pre, p.stop ≤ x.so)
    (hmid : ∀ p ∈ mid, tb.so ≤ p.so ∧ p.stop ≤ tb.stop) (hpost : ∀ p ∈ post, x.stop ≤ p.so)
    (hleft : ∀ b, tb.so ≤ b → b < x.so → Covered so stop pre b)
    (hright : ∀ b, x.stop ≤ b → b < tb.stop → Covered so stop post b) :
    Merged content e tb (before ++ (pre ++ x :: (post ++ after))) := by
  have hin (p : AmRxBlock) (hp : p ∈ pre ++ (mid ++ post)) : p.sn = tb.sn := h.sn_eq p hp
  have hinPre (p : AmRxBlock) (hp : p ∈ pre) : p.sn = tb.sn := hin p (List.mem_append_left _ hp)
  have hinMid (p : AmRxBlock) (hp : p ∈ mid) : p.sn = tb.sn :=
    hin p (List.mem_append_right _ (List.mem_append_left _ hp))
  have hinPost (p : AmRxBlock) (hp : p ∈ post) : p.sn = tb.sn :=
    hin p (List.mem_append_right _ (List.mem_append_right _ hp))
  have hlist : e.receiverBuffer = (before ++ pre) ++ (mid ++ (post ++ after)) := by
    rw [h.receiverBuffer_eq, List.append_assoc, List.append_assoc, List.append_assoc]
  have hsub : ((before ++ pre) ++ (post ++ after)).Sublist e.receiverBuffer := by
    rw [hlist]
    exact (List.Sublist.refl _).append (List.sublist_append_right _ _)
  rw [← List.append_assoc]
  refine ⟨pairwise_insert (he.sorted.sublist hsub) ?_ ?_, fun p hp ↦ ?_, fun c ↦ ?_⟩
  · intro p hp
    rcases List.mem_append.mp hp with hp | hp
    · exact .inl (by rw [hx]; exact h.offset_lt p hp)
    · exact .inr ⟨(hinPre p hp).trans hx.symm, hpre p hp⟩
  · intro p hp
    rcases List.mem_append.mp hp with hp | hp
    · exact .inr ⟨hx.trans (hinPost p hp).symm, hpost p hp⟩
    · exact .inl (by rw [hx]; exact h.lt_offset p hp)
  · rcases List.mem_append.mp hp with hp | hp
    · exact (he.partOf p (hsub.subset (List.mem_append_left _ hp))).carries
    · rcases List.mem_cons.mp hp with rfl | hp
      · exact hcarries
      · exact (he.partOf p (hsub.subset (List.mem_append_right _ hp))).carries
  · rw [AmRxEntity.HasByte, hlist]
    refine exists_splice_iff (fun c hc ↦ ?_) (fun p hp c hc ↦ ?_) fun c hc ↦ ?_
    · exact ⟨hx.symm.trans hc.1, hso.trans hc.2.1, hc.2.2.trans_le hstop⟩
    · have hrange := hmid p hp
      exact ⟨(hinMid p hp).symm.trans hc.1, hrange.1.trans hc.2.1, hc.2.2.trans_le hrange.2⟩
    · obtain ⟨hsn, hle, hlt⟩ := hc
      rcases lt_or_ge (c.2 : ℤ) x.so with hbefore | hbehind
      · obtain ⟨p, hp, hb⟩ := hleft c.2 hle hbefore
        exact .inr (.inl ⟨p, List.mem_append_right _ hp, (hinPre p hp).trans hsn, hb⟩)
      rcases lt_or_ge (c.2 : ℤ) x.stop with hxlt | hxge
      · exact .inl ⟨hx.trans hsn, hbehind, hxlt⟩
      · obtain ⟨p, hp, hb⟩ := hright c.2 hxge hlt
        exact .inr (.inr ⟨p, List.mem_append_left _ hp, (hinPost p hp).trans hsn, hb⟩)

/-- Nothing changes if all bytes have been received. -/
theorem Ordered.merged_refused (he : e.Ordered content) (h : ∀ c, tb.HasByte c → e.HasByte c) :
    Merged content e tb e.receiverBuffer where
  sorted := he.sorted
  carries p hp := (he.partOf p hp).carries
  hasByte_iff c := (or_iff_left_of_imp (h c)).symm

end AmRxEntity

end EdgeSlice.Rlc
