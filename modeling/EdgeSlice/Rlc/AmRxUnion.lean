import EdgeSlice.Rlc.AmRxInsertion

namespace EdgeSlice.Rlc

namespace AmRxBlock

variable {content : ℕ → Bytes} {p tb : AmRxBlock} {before after post : List AmRxBlock}

theorem PartOf.uint16_stop (hp : p.PartOf content) (hlen : (content p.sn).length ≤ rlcAmStatusPduSoEndAllBytes) :
    (uint16 p.stop : ℤ) = p.stop := by
  have hso := p.so_nonneg
  have hlt := hp.nonempty
  have hle := hp.stop_le
  rw [rlcAmStatusPduSoEndAllBytes] at hlen
  rw [uint16]
  omega

theorem PartOf.uint16_end (hp : p.PartOf content) (hlen : (content p.sn).length ≤ rlcAmStatusPduSoEndAllBytes) :
    (uint16 (p.stop - 1) : ℤ) = p.stop - 1 := by
  have hso := p.so_nonneg
  have hlt := hp.nonempty
  have hle := hp.stop_le
  rw [rlcAmStatusPduSoEndAllBytes] at hlen
  rw [uint16]
  omega

/-- The steps of `insertBehind` if the segment overlaps with one that the list holds: `upTo` are the
segments of its PDU up to the one with `soStartMin`, `rest` is the list from there on. -/
def insertOverlapping (tb : AmRxBlock) (before upTo : List AmRxBlock) (previous : AmRxBlock)
    (rest : List AmRxBlock) : Option AmInsertion :=
  let soStart := tb.pduInfo.so
  let soEnd := uint16 (tb.stop - 1)
  let (contiguousEnd, row, rest) := spanContiguous (fun x ↦ uint16 x) tb.sn (uint16 previous.stop) rest
  if previous.so ≤ soStart ∧ soEnd ≤ contiguousEnd - 1 then some (.refused .amSegmentDuplicate)
  else
    let previous := row.getLast?.getD previous
    let cursor := discardEmbedded tb.sn soEnd rest
    let soStart :=
      if (soStart : ℤ) < previous.so then uint16 previous.stop
      else if soStart < previous.stop then uint16 previous.stop
      else soStart
    let soEnd := trimEnd tb.sn soEnd cursor
    if soStart ≤ soEnd ∧ tb.so ≤ soStart ∧ soEnd ≤ tb.stop - 1 then
      tb.linkTruncated soStart soEnd (before ++ (upTo ++ row)) cursor
    else none

theorem trimEnd_same {sn soEnd : ℕ} (hsoEnd : soEnd < 65536) (hpost : ∀ p ∈ post, p.sn = sn)
    (hafter : ∀ p ∈ after, p.sn ≠ sn) (hpos : ∀ p ∈ post, 0 < p.so) :
    (trimEnd sn soEnd (post ++ after) : ℤ) = OrderedRanges.cut so (soEnd + 1) post - 1 := by
  cases post with
  | nil =>
    rw [OrderedRanges.cut, List.nil_append]
    cases after with
    | nil =>
      rw [trimEnd]
      omega
    | cons p after =>
      rw [trimEnd, if_neg fun h ↦ hafter p List.mem_cons_self h.1]
      omega
  | cons p post =>
    have hp := hpost p List.mem_cons_self
    have hso := hpos p List.mem_cons_self
    rw [List.cons_append, trimEnd, OrderedRanges.cut]
    by_cases hle : p.so ≤ soEnd
    · rw [if_pos ⟨hp, hle⟩, uint16]
      omega
    · rw [if_neg fun h ↦ hle h.2]
      omega

/-- A copy of a part of the block is put into the list. -/
theorem linkTruncated_eq (before after : List AmRxBlock) (htb : tb.PartOf content) (hlen : (content tb.sn).length ≤ rlcAmStatusPduSoEndAllBytes)
    {soStart soEnd : ℕ} (hstart : tb.so ≤ soStart) (hle : soStart ≤ soEnd) (hstop : soEnd ≤ tb.stop - 1)
    (hne : tb.so < soStart ∨ soEnd < tb.stop - 1) (hlist : before ≠ [] ∨ after ≠ []) :
    ∃ x : AmRxBlock, tb.linkTruncated soStart soEnd before after = some (.copied (before ++ x :: after)) ∧
      x.sn = tb.sn ∧ x.so = soStart ∧ x.stop = soEnd + 1 ∧ x.Carries content := by
  have hso := tb.so_nonneg
  have hstopLe := htb.stop_le
  rw [rlcAmStatusPduSoEndAllBytes] at hlen
  have hoffset : (uint16 (soStart - tb.so) : ℤ) = soStart - tb.so := by
    rw [uint16]
    omega
  have hsize : (0 : ℤ) ≤ soEnd - soStart + 1 := by omega
  have hfits : tb.so + uint16 (soStart - tb.so) + (soEnd - soStart + 1 : ℤ) ≤ tb.stop := by omega
  obtain ⟨hsn, hxso, hxstop, hcarries⟩ := createNewSegment_spec htb hlen hsize hfits
  refine ⟨_, ?_, hsn, by omega, by omega, hcarries⟩
  have hif : tb.so ≠ soStart ∨ (soEnd : ℤ) ≠ tb.stop - 1 := by omega
  have hnonempty : ¬(before = [] ∧ after = []) := fun h ↦ hlist.elim (· h.1) (· h.2)
  rw [linkTruncated, if_pos hif, if_neg hnonempty]

/-- There is nothing to remove. -/
theorem linkTruncated_none {soStart soEnd : ℕ} (hso : tb.so = soStart) (hstop : soEnd = tb.stop - 1) :
    tb.linkTruncated soStart soEnd before after = none := by
  rw [linkTruncated, if_neg fun h ↦ h.elim (· hso) (· hstop)]

end AmRxBlock

namespace AmRxEntity

open AmRxBlock OrderedRanges

variable {content : ℕ → Bytes} {e : AmRxEntity} {p q tb first previous : AmRxBlock}
  {before same after upTo rest pre post : List AmRxBlock}

/-- The received block is put into the list, what it covers is taken out. -/
def ExactUnion (content : ℕ → Bytes) (e : AmRxEntity) (tb : AmRxBlock) (insertion : Option AmInsertion) :
    Prop :=
  ∃ i, insertion = some i ∧ Merged content e tb (i.list e.receiverBuffer)

/-- The byte `a` is in a segment which is the first one or follows another one without a gap. -/
def Continues (same : List AmRxBlock) (a : ℤ) : Prop :=
  ∃ pre p post, same = pre ++ p :: post ∧ p.so ≤ a ∧ a < p.stop ∧ ∀ q ∈ pre.getLast?, q.stop = p.so

/-- The range from `a` to `b` ends inside a segment, and does not begin inside one. -/
def EndsInside (same : List AmRxBlock) (a b : ℤ) : Prop :=
  (∃ p ∈ same, p.so < b ∧ b < p.stop) ∧ ∀ p ∈ same, ¬(p.so < a ∧ a < p.stop)

/-- The block has no byte in common with the segments. -/
def Apart (same : List AmRxBlock) (tb : AmRxBlock) : Prop := ∀ p ∈ same, p.stop ≤ tb.so ∨ tb.stop ≤ p.so

section Segment

variable (he : e.Ordered content) (htb : tb.PartOf content) (h : e.Split tb.sn before same after)

include he h in
theorem Split.partOf (hp : p ∈ same) : p.PartOf content := by
  refine he.partOf p ?_
  rw [h.receiverBuffer_eq]
  exact List.mem_append_right _ (List.mem_append_left _ hp)

include he h in
theorem Split.uint16_stop (hp : p ∈ same) : (uint16 p.stop : ℤ) = p.stop :=
  (h.partOf he hp).uint16_stop (he.content_le p.sn)

include h in
theorem Split.hasByte {c : ℕ × ℕ} (hsn : tb.sn = c.1) (hcovered : Covered so stop same c.2) : e.HasByte c := by
  obtain ⟨p, hp, hcovers⟩ := hcovered
  refine ⟨p, ?_, (h.sn_eq p hp).trans hsn, hcovers⟩
  rw [h.receiverBuffer_eq]
  exact List.mem_append_right _ (List.mem_append_left _ hp)

include he htb in
theorem Ordered.uint16_end : (uint16 (tb.stop - 1) : ℤ) = tb.stop - 1 :=
  htb.uint16_end (he.content_le tb.sn)

include he htb h in
/-- The segments that end before the received one are left out of the list. -/
theorem Split.discardEmbedded_eq (hrest : rest.Sublist same) :
    discardEmbedded tb.sn (uint16 (tb.stop - 1)) (rest ++ after) =
      (rest.dropWhile fun p ↦ p.stop ≤ tb.stop) ++ after := by
  have hsn (p : AmRxBlock) (hp : p ∈ rest) : p.sn = tb.sn := h.sn_eq p (hrest.subset hp)
  have hdrop := dropWhile_same hsn (fun p ↦ h.sn_ne) fun p ↦ p.stop - 1 ≤ (uint16 (tb.stop - 1) : ℤ)
  rw [discardEmbedded, hdrop, he.uint16_end htb]
  congr 2
  funext p
  exact decide_eq_decide.mpr ⟨fun hle ↦ by omega, fun hle ↦ by omega⟩

include he htb h in
/-- The segments `pre` and those behind `rest` stay, the range between them is filled. -/
theorem Split.linkTruncated_merged {mid : List AmRxBlock} (hsame : same = pre ++ (mid ++ post))
    {soStart soEnd : ℕ} (hstart : tb.so ≤ soStart) (hle : soStart ≤ soEnd)
    (hend : (soEnd : ℤ) = cut so tb.stop post - 1) (hne : tb.so < soStart ∨ soEnd < tb.stop - 1)
    (hlist : pre ≠ [] ∨ post ≠ []) (hpre : ∀ p ∈ pre, p.stop ≤ soStart)
    (hmid : ∀ p ∈ mid, tb.so ≤ p.so ∧ p.stop ≤ tb.stop) (hpost : ∀ p ∈ post, tb.stop < p.stop)
    (hleft : ∀ b, tb.so ≤ b → b < soStart → Covered so stop pre b) :
    ExactUnion content e tb (tb.linkTruncated soStart soEnd (before ++ pre) (post ++ after)) := by
  have hcut : cut so tb.stop post ≤ tb.stop := cut_le _ _
  have hordered : OrderedRanges.Ordered so stop post :=
    (h.ordered he).sublist (by rw [hsame]; exact (List.sublist_append_right _ _).trans (List.sublist_append_right _ _))
  have hnonempty : before ++ pre ≠ [] ∨ post ++ after ≠ [] := by
    rcases hlist with hne | hne
    · exact .inl fun heq ↦ hne (List.append_eq_nil_iff.mp heq).2
    · exact .inr fun heq ↦ hne (List.append_eq_nil_iff.mp heq).1
  obtain ⟨x, hx, hsn, hso, hstop, hcarries⟩ :=
    linkTruncated_eq _ _ htb (he.content_le tb.sn) hstart hle (by omega) hne hnonempty
  rw [hsame] at h
  refine ⟨_, hx, ?_⟩
  rw [AmInsertion.list, List.append_assoc]
  refine h.merged he hsn hcarries (by omega) (by omega) (fun p hp ↦ ?_) hmid (fun p hp ↦ ?_)
    (fun b hb hlt ↦ hleft b hb (by omega)) fun b hb hlt ↦ covered_of_cut_le hpost (by omega) hlt
  · rw [hso]
    exact hpre p hp
  · have hstartLe : cut so tb.stop post ≤ p.so := hordered.cut_le_start hp
    omega

include he h in
/-- Of the segments that end behind the received one, one begins in it. -/
theorem Split.cut_lt_iff (hrest : rest.Sublist same) :
    cut so tb.stop (rest.dropWhile fun p ↦ p.stop ≤ tb.stop) < tb.stop ↔
      ∃ p ∈ rest, p.so < tb.stop ∧ tb.stop < p.stop := by
  have hordered := (h.ordered he).sublist hrest
  have hpost : OrderedRanges.Ordered so stop (rest.dropWhile fun p ↦ p.stop ≤ tb.stop) :=
    hordered.sublist (List.dropWhile_sublist _)
  rw [hpost.cut_lt_iff]
  constructor
  · rintro ⟨p, hp, hlt⟩
    obtain ⟨hmem, hstop⟩ := hordered.mem_dropWhile_iff.mp hp
    exact ⟨p, hmem, hlt, hstop⟩
  · rintro ⟨p, hp, hlt, hstop⟩
    exact ⟨p, hordered.mem_dropWhile_iff.mpr ⟨hp, hstop⟩, hlt⟩

include he htb h in
theorem Split.insertBefore_iff (hso : ∀ p ∈ same, tb.so < p.so) :
    ExactUnion content e tb (tb.insertBefore before (same ++ after)) ↔
      ∃ p ∈ same, p.so < tb.stop ∧ tb.stop < p.stop := by
  have hnonneg := tb.so_nonneg
  have hnonempty := htb.nonempty
  have hend := he.uint16_end htb
  have hordered := h.ordered he
  rw [← h.cut_lt_iff he (List.Sublist.refl _), insertBefore,
    h.discardEmbedded_eq he htb (List.Sublist.refl _)]
  have hsplit := List.takeWhile_append_dropWhile (l := same) (p := fun p ↦ p.stop ≤ tb.stop)
  have hmid (p : AmRxBlock) (hp : p ∈ same.takeWhile fun p ↦ p.stop ≤ tb.stop) : p.stop ≤ tb.stop :=
    stop_le_of_mem_takeWhile hp
  have hpost (p : AmRxBlock) (hp : p ∈ same.dropWhile fun p ↦ p.stop ≤ tb.stop) : tb.stop < p.stop :=
    hordered.lt_stop_of_mem_dropWhile hp
  generalize same.takeWhile (fun p ↦ p.stop ≤ tb.stop) = mid at *
  generalize same.dropWhile (fun p ↦ p.stop ≤ tb.stop) = post at *
  have hin (p : AmRxBlock) (hp : p ∈ post) : p ∈ same := by
    rw [← hsplit]
    exact List.mem_append_right _ hp
  have htrim := trimEnd_same (uint16_lt (tb.stop - 1)) (fun p hp ↦ h.sn_eq p (hin p hp)) (fun p ↦ h.sn_ne)
    fun p hp ↦ hnonneg.trans_lt (hso p (hin p hp))
  rw [hend, Int.sub_add_cancel] at htrim
  have hlt : tb.so < cut so tb.stop post := lt_cut hnonempty fun p hp ↦ hso p (hin p hp)
  have hle : cut so tb.stop post ≤ tb.stop := cut_le _ _
  generalize trimEnd tb.sn (uint16 (tb.stop - 1)) (post ++ after) = soEnd at *
  have hsoEq : tb.so = tb.pduInfo.so := rfl
  have hguard : tb.pduInfo.so ≤ soEnd ∧ (soEnd : ℤ) ≤ tb.stop - 1 := by omega
  rw [if_pos hguard]
  constructor
  · rintro ⟨i, hi, -⟩
    refine lt_of_le_of_ne hle fun heq ↦ ?_
    rw [linkTruncated_none rfl (by omega)] at hi
    cases hi
  · intro hcut
    have hne : post ≠ [] := by
      rintro rfl
      exact lt_irrefl _ hcut
    have hsame : same = [] ++ (mid ++ post) := hsplit.symm
    have hinMid (p : AmRxBlock) (hp : p ∈ mid) : p ∈ same := by
      rw [← hsplit]
      exact List.mem_append_left _ hp
    have hmerged := h.linkTruncated_merged he htb hsame hsoEq.le hguard.1 htrim (.inr (by omega)) (.inr hne)
      (fun p hp ↦ by cases hp) (fun p hp ↦ ⟨(hso p (hinMid p hp)).le, hmid p hp⟩) hpost
      fun b hb hlt ↦ absurd (hb.trans_lt hlt) (lt_irrefl _)
    rw [List.append_nil] at hmerged
    exact hmerged

include he htb h in
/-- The segment lies between those of its PDU, or `insertOverlapping` does the rest. -/
theorem Split.insertBehind_eq {next : List AmRxBlock} (hsame : same = first :: next) (hfirst : first.so ≤ tb.so) :
    tb.insertBehind before first (next ++ after) =
      if (same.dropWhile (fun p ↦ p.stop ≤ tb.so)).head?.all fun p ↦ tb.stop ≤ p.so then
        tb.link (before ++ (same.takeWhile fun p ↦ p.stop ≤ tb.so))
          ((same.dropWhile fun p ↦ p.stop ≤ tb.so) ++ after)
      else if same.takeWhile (fun p ↦ p.stop ≤ tb.so) = [] then
        tb.insertOverlapping before [first] first (next ++ after)
      else
        tb.insertOverlapping before (same.takeWhile fun p ↦ p.stop ≤ tb.so)
          ((same.takeWhile fun p ↦ p.stop ≤ tb.so).getLast?.getD first)
          ((same.dropWhile fun p ↦ p.stop ≤ tb.so) ++ after) := by
  have hlist : first :: (next ++ after) = same ++ after := by
    rw [hsame]
    rfl
  have htake : ((first :: (next ++ after)).takeWhile fun p ↦ p.sn = tb.sn ∧ p.stop ≤ (tb.pduInfo.so : ℤ)) =
      same.takeWhile fun p ↦ p.stop ≤ tb.so := by
    rw [hlist]
    exact takeWhile_same h.sn_eq (fun p ↦ h.sn_ne) fun p ↦ p.stop ≤ tb.so
  have hdrop : ((first :: (next ++ after)).dropWhile fun p ↦ p.sn = tb.sn ∧ p.stop ≤ (tb.pduInfo.so : ℤ)) =
      (same.dropWhile fun p ↦ p.stop ≤ tb.so) ++ after := by
    rw [hlist]
    exact dropWhile_same h.sn_eq (fun p ↦ h.sn_ne) fun p ↦ p.stop ≤ tb.so
  have hhead : ((same.dropWhile fun p ↦ p.stop ≤ tb.so) ++ after).head?.all
      (fun p ↦ p.sn ≠ tb.sn ∨ (uint16 (tb.stop - 1) : ℤ) < p.so) =
        (same.dropWhile fun p ↦ p.stop ≤ tb.so).head?.all fun p ↦ tb.stop ≤ p.so := by
    rw [he.uint16_end htb]
    have hin (p : AmRxBlock) (hp : p ∈ same.dropWhile fun p ↦ p.stop ≤ tb.so) : p.sn = tb.sn :=
      h.sn_eq p ((List.dropWhile_sublist _).subset hp)
    cases hcases : same.dropWhile fun p ↦ p.stop ≤ tb.so with
    | nil =>
      rw [List.nil_append]
      cases after with
      | nil => rfl
      | cons p after =>
        have hne := h.sn_ne (List.mem_cons_self (a := p))
        simp [hne]
    | cons p rest =>
      have hsn := hin p (by rw [hcases]; exact List.mem_cons_self)
      simp [hsn, Int.sub_one_lt_iff]
  rw [insertBehind]
  dsimp only
  rw [htake, hdrop, hhead]
  by_cases hall : (same.dropWhile fun p ↦ p.stop ≤ tb.so).head?.all fun p ↦ tb.stop ≤ p.so
  · have hpassed : (same.takeWhile fun p ↦ p.stop ≤ tb.so).isEmpty = false := by
      rw [hsame]
      by_cases hstop : first.stop ≤ tb.so
      · rw [List.takeWhile_cons_of_pos (by simpa using hstop)]
        rfl
      · rw [hsame, List.dropWhile_cons_of_neg (by simpa using hstop)] at hall
        have hle : tb.stop ≤ first.so := by simpa using hall
        have hlt := htb.nonempty
        omega
    rw [if_pos hall, if_pos hall, if_neg (ne_true_of_eq_false hpassed)]
  · rw [if_neg hall, if_neg hall]
    by_cases hpassed : same.takeWhile (fun p ↦ p.stop ≤ tb.so) = []
    · have hempty : (same.takeWhile fun p ↦ p.stop ≤ tb.so).isEmpty = true := by
        rw [hpassed]
        rfl
      rw [if_pos hpassed, if_pos hempty]
      rfl
    · have hempty : ¬(same.takeWhile fun p ↦ p.stop ≤ tb.so).isEmpty = true :=
        fun heq ↦ hpassed (List.isEmpty_iff.mp heq)
      rw [if_neg hpassed, if_neg hempty]
      rfl

include he h in
/-- The first byte of a segment that is taken out gets lost, if the new one does not hold it. -/
theorem Split.not_merged {mid : List AmRxBlock} {x : AmRxBlock} (hsame : same = pre ++ (mid ++ post))
    (hq : q ∈ mid) (hx : q.so < x.so) :
    ¬Merged content e tb (before ++ (pre ++ x :: (post ++ after))) := by
  intro hmerged
  have hordered := h.ordered he
  have hqMem : q ∈ same := by
    rw [hsame]
    exact List.mem_append_right _ (List.mem_append_left _ hq)
  have hnonempty := hordered.nonempty q hqMem
  have hnonneg := q.so_nonneg
  have hcovered : Covered so stop same (q.so.toNat : ℤ) := ⟨q, hqMem, by omega, by omega⟩
  obtain ⟨r, hr, hsn, hholds⟩ := (hmerged.hasByte_iff (tb.sn, q.so.toNat)).mpr (.inl (h.hasByte rfl hcovered))
  have hle : r.so ≤ (q.so.toNat : ℤ) := hholds.1
  have hlt : (q.so.toNat : ℤ) < r.stop := hholds.2
  rw [hsame] at hordered
  obtain ⟨-, hmidPost, hcross⟩ := List.pairwise_append.mp hordered.disjoint
  rcases List.mem_append.mp hr with hr | hr
  · have hoffset := h.offset_lt r hr
    rw [hsn] at hoffset
    exact lt_irrefl _ hoffset
  rcases List.mem_append.mp hr with hr | hr
  · have hstop : r.stop ≤ q.so := hcross r hr q (List.mem_append_left _ hq)
    omega
  rcases List.mem_cons.mp hr with rfl | hr
  · omega
  rcases List.mem_append.mp hr with hr | hr
  · have hstop : q.stop ≤ r.so := (List.pairwise_append.mp hmidPost).2.2 q hq r hr
    omega
  · exact h.sn_ne hr hsn

include he htb h in
/-- The block is put between the segments of its PDU. -/
theorem Split.link_merged (hsame : same = pre ++ post) (hpre : ∀ p ∈ pre, p.stop ≤ tb.so)
    (hpost : ∀ p ∈ post, tb.stop ≤ p.so) (hlist : e.receiverBuffer ≠ []) :
    ExactUnion content e tb (tb.link (before ++ pre) (post ++ after)) := by
  have hnonempty : ¬(before ++ pre = [] ∧ post ++ after = []) := by
    rintro ⟨hl, hr⟩
    refine hlist ?_
    rw [h.receiverBuffer_eq, hsame, List.append_assoc, hr, ← List.append_assoc, hl, List.append_nil]
  have hsplit : e.Split tb.sn before (pre ++ ([] ++ post)) after := by
    rw [List.nil_append, ← hsame]
    exact h
  refine ⟨.placed (before ++ pre) tb (post ++ after), if_neg hnonempty, ?_⟩
  rw [AmInsertion.list, List.append_assoc]
  exact hsplit.merged he rfl htb.carries le_rfl le_rfl hpre (fun p hp ↦ by cases hp) hpost
    (fun b hb hlt ↦ absurd (hb.trans_lt hlt) (lt_irrefl _)) fun b hb hlt ↦ absurd (hb.trans_lt hlt) (lt_irrefl _)

section Overlapping

variable {init : List AmRxBlock} (hsame : same = (init ++ [previous]) ++ rest)

include he h hsame in
theorem Split.spanContiguous_eq :
    spanContiguous (fun x ↦ uint16 x) tb.sn (uint16 previous.stop) (rest ++ after) =
      (rowStop so stop previous.stop rest, row so stop previous.stop rest,
        rest.drop (row so stop previous.stop rest).length ++ after) := by
  have hmem (p : AmRxBlock) (hp : p ∈ rest) : p ∈ same := by
    rw [hsame]
    exact List.mem_append_right _ hp
  have hprevious : previous ∈ same := by
    rw [hsame]
    exact List.mem_append_left _ (List.mem_append_right _ List.mem_cons_self)
  rw [h.uint16_stop he hprevious]
  exact spanContiguous_same (fun p hp ↦ h.sn_eq p (hmem p hp)) (fun p ↦ h.sn_ne)
    fun p hp ↦ h.uint16_stop he (hmem p hp)

include he htb h hsame in
/-- `insertOverlapping` when a part of the segment is new: its start is moved behind the segments that
follow one another, its end before the next one that ends behind it. -/
theorem Split.insertOverlapping_eq (soStart : ℕ) {last : AmRxBlock}
    (hlast : last = (row so stop previous.stop rest).getLast?.getD previous)
    (hsoStart : (soStart : ℤ) = if tb.so < last.stop then last.stop else tb.so)
    (hnew : ¬(previous.so ≤ tb.so ∧ tb.stop ≤ rowStop so stop previous.stop rest))
    (hlt : (soStart : ℤ) < tb.stop) (hrest : ∀ p ∈ (rest.drop (row so stop previous.stop rest).length).dropWhile
      fun p ↦ p.stop ≤ tb.stop, (soStart : ℤ) < p.so) :
    ∃ soEnd : ℕ, tb.insertOverlapping before (init ++ [previous]) previous (rest ++ after) =
        tb.linkTruncated soStart soEnd (before ++ ((init ++ [previous]) ++ row so stop previous.stop rest))
          (((rest.drop (row so stop previous.stop rest).length).dropWhile fun p ↦ p.stop ≤ tb.stop) ++ after) ∧
      (soEnd : ℤ) = cut so tb.stop ((rest.drop (row so stop previous.stop rest).length).dropWhile
        fun p ↦ p.stop ≤ tb.stop) - 1 ∧ soStart ≤ soEnd := by
  have hmem (p : AmRxBlock) (hp : p ∈ rest) : p ∈ same := by
    rw [hsame]
    exact List.mem_append_right _ hp
  have hprevious : previous ∈ same := by
    rw [hsame]
    exact List.mem_append_left _ (List.mem_append_right _ List.mem_cons_self)
  have hend := he.uint16_end htb
  have hsub : (rest.drop (row so stop previous.stop rest).length).Sublist same := by
    rw [hsame]
    exact (List.drop_sublist _ _).trans (List.sublist_append_right _ _)
  rw [insertOverlapping]
  dsimp only
  rw [h.spanContiguous_eq he hsame]
  dsimp only
  rw [if_neg fun hold ↦ hnew ⟨hold.1, by omega⟩, h.discardEmbedded_eq he htb hsub, ← hlast]
  have hlastMem : last ∈ same := by
    rw [hlast]
    cases hcases : (row so stop previous.stop rest).getLast? with
    | none => exact hprevious
    | some q => exact hmem q (mem_of_mem_row (List.mem_of_getLast? hcases))
  have hnonempty := (h.partOf he hlastMem).nonempty
  have hlast16 := h.uint16_stop he hlastMem
  have hstart : (if (tb.pduInfo.so : ℤ) < last.so then uint16 last.stop
      else if (tb.pduInfo.so : ℤ) < last.stop then uint16 last.stop else tb.pduInfo.so) = soStart := by
    have hsoEq : tb.so = tb.pduInfo.so := rfl
    split_ifs at hsoStart ⊢ <;> omega
  rw [hstart]
  have hpostMem (p : AmRxBlock) (hp : p ∈ (rest.drop (row so stop previous.stop rest).length).dropWhile
      fun p ↦ p.stop ≤ tb.stop) : p ∈ same := hsub.subset ((List.dropWhile_sublist _).subset hp)
  generalize (rest.drop (row so stop previous.stop rest).length).dropWhile
    (fun p ↦ p.stop ≤ tb.stop) = post at *
  have htrim := trimEnd_same (uint16_lt (tb.stop - 1)) (fun p hp ↦ h.sn_eq p (hpostMem p hp)) (fun p ↦ h.sn_ne)
    fun p hp ↦ (Int.natCast_nonneg soStart).trans_lt (hrest p hp)
  rw [hend, Int.sub_add_cancel] at htrim
  have hcut : (soStart : ℤ) < cut so tb.stop post := lt_cut hlt hrest
  have hle : cut so tb.stop post ≤ tb.stop := cut_le _ _
  refine ⟨_, if_pos ?_, htrim, by omega⟩
  split_ifs at hsoStart <;> omega

include he htb h hsame in
/-- The segment begins in a row of segments without gaps. -/
theorem Split.insertOverlapping_continues (hprevious : previous.so ≤ tb.so)
    (hlt : tb.so < rowStop so stop previous.stop rest) :
    ExactUnion content e tb (tb.insertOverlapping before (init ++ [previous]) previous (rest ++ after)) := by
  have hordered := h.ordered he
  rw [hsame] at hordered
  have hrest : OrderedRanges.Ordered so stop rest := hordered.sublist (List.sublist_append_right _ _)
  have hcross (p : AmRxBlock) (hp : p ∈ rest) : previous.stop ≤ p.so :=
    (List.pairwise_append.mp hordered.disjoint).2.2 previous (List.mem_append_right _ List.mem_cons_self) p hp
  have hsplit : row so stop previous.stop rest ++ rest.drop (row so stop previous.stop rest).length = rest :=
    row_append_drop _ _
  -- the range from the segment's first byte to the end of the row is in the list
  have hleft (b : ℤ) (hle : tb.so ≤ b) (hb : b < rowStop so stop previous.stop rest) :
      Covered so stop ((init ++ [previous]) ++ row so stop previous.stop rest) b := by
    rcases lt_or_ge b previous.stop with hin | hbehind
    · exact ⟨previous, List.mem_append_left _ (List.mem_append_right _ List.mem_cons_self),
        hprevious.trans hle, hin⟩
    · obtain ⟨p, hp, hcovers⟩ := hrest.covered_row_iff.mpr ⟨hbehind, hb⟩
      exact ⟨p, List.mem_append_right _ hp, hcovers⟩
  by_cases hold : previous.so ≤ tb.so ∧ tb.stop ≤ rowStop so stop previous.stop rest
  · refine ⟨.refused .amSegmentDuplicate, ?_, he.merged_refused fun c hc ↦ h.hasByte hc.1 ?_⟩
    · rw [insertOverlapping]
      dsimp only
      rw [h.spanContiguous_eq he hsame]
      dsimp only
      rw [he.uint16_end htb, if_pos ⟨hold.1, Int.sub_le_sub_right hold.2 1⟩]
    · obtain ⟨p, hp, hcovers⟩ := hleft c.2 hc.2.1 (hc.2.2.trans_le hold.2)
      refine ⟨p, ?_, hcovers⟩
      rw [hsame, ← hsplit, ← List.append_assoc]
      exact List.mem_append_left _ hp
  · have hlast : ((row so stop previous.stop rest).getLast?.getD previous).stop =
        rowStop so stop previous.stop rest := stop_getLast_row previous rest
    have hnonneg := tb.so_nonneg
    have hnew : rowStop so stop previous.stop rest < tb.stop := not_le.mp fun hle ↦ hold ⟨hprevious, hle⟩
    have hsoStart : ((rowStop so stop previous.stop rest).toNat : ℤ) = rowStop so stop previous.stop rest := by
      omega
    have hrowStop (p : AmRxBlock) (hp : p ∈ rest.drop (row so stop previous.stop rest).length) :
        rowStop so stop previous.stop rest < p.so := hrest.rowStop_lt hcross hp
    obtain ⟨soEnd, heq, hend, hle⟩ := h.insertOverlapping_eq he htb hsame
      (rowStop so stop previous.stop rest).toNat rfl (by rw [hlast, if_pos hlt, hsoStart]) hold
      (by omega) fun p hp ↦ by
        rw [hsoStart]
        exact hrowStop p ((List.dropWhile_sublist _).subset hp)
    rw [heq]
    have hrestSub : (rest.drop (row so stop previous.stop rest).length).Sublist rest := List.drop_sublist _ _
    have hmidPost := List.takeWhile_append_dropWhile
      (l := rest.drop (row so stop previous.stop rest).length) (p := fun p ↦ p.stop ≤ tb.stop)
    have hsplitSame : same = ((init ++ [previous]) ++ row so stop previous.stop rest) ++
        ((rest.drop (row so stop previous.stop rest).length).takeWhile (fun p ↦ p.stop ≤ tb.stop) ++
          (rest.drop (row so stop previous.stop rest).length).dropWhile fun p ↦ p.stop ≤ tb.stop) := by
      rw [hmidPost, List.append_assoc, hsplit, hsame]
    refine h.linkTruncated_merged he htb hsplitSame (by omega) hle hend (.inl (by omega)) (.inl (by simp))
      (fun p hp ↦ ?_) (fun p hp ↦ ⟨?_, stop_le_of_mem_takeWhile hp⟩)
      (fun p hp ↦ (hrest.sublist hrestSub).lt_stop_of_mem_dropWhile hp) fun b hb hlt ↦ hleft b hb (by omega)
    · rw [hsoStart]
      rcases List.mem_append.mp hp with hp | hp
      · have hinit : OrderedRanges.Ordered so stop (init ++ [previous]) :=
          hordered.sublist (List.sublist_append_left _ _)
        exact (hinit.stop_le_last hp).trans hrest.le_rowStop
      · exact hrest.stop_le_rowStop hp
    · have hbehind := hrowStop p ((List.takeWhile_sublist _).subset hp)
      omega

include he htb h hsame in
/-- There is a gap before the segment's first byte, or before the segment that holds it. -/
theorem Split.insertOverlapping_gap (hprevious : previous.stop ≤ tb.so) (hgap : ∀ p ∈ rest, previous.stop < p.so)
    (hbehind : ∀ p ∈ rest, tb.so < p.stop) (hnot : ∀ p ∈ rest, ¬(p.so ≤ tb.so ∧ tb.stop ≤ p.stop)) :
    ExactUnion content e tb (tb.insertOverlapping before (init ++ [previous]) previous (rest ++ after)) ↔
      EndsInside same tb.so tb.stop := by
  have hordered := h.ordered he
  have hnonempty := htb.nonempty
  have hrows : row so stop previous.stop rest = [] ∧ rowStop so stop previous.stop rest = previous.stop :=
    row_of_lt hgap
  obtain ⟨hrow, hrowStop⟩ := hrows
  have hrestSub : rest.Sublist same := by
    rw [hsame]
    exact List.sublist_append_right _ _
  have hsoEq : tb.so = tb.pduInfo.so := rfl
  have hfree (p : AmRxBlock) (hp : p ∈ rest.dropWhile fun p ↦ p.stop ≤ tb.stop) : tb.so < p.so := by
    obtain ⟨hmem, hlt⟩ := (hordered.sublist hrestSub).mem_dropWhile_iff.mp hp
    exact not_le.mp fun hle ↦ hnot p hmem ⟨hle, hlt.le⟩
  have heq := h.insertOverlapping_eq he htb hsame tb.pduInfo.so rfl
  rw [hrow, hrowStop, List.getLast?_nil, Option.getD_none, List.length_nil, List.drop_zero, List.append_nil,
    if_neg (not_lt.mpr hprevious)] at heq
  obtain ⟨soEnd, heq, hend, hle⟩ := heq rfl (fun hold ↦ absurd hold.2 (by omega)) hnonempty hfree
  rw [heq]
  have hcut := h.cut_lt_iff he hrestSub
  have hle' : cut so tb.stop (rest.dropWhile fun p ↦ p.stop ≤ tb.stop) ≤ tb.stop := cut_le _ _
  have hinit (p : AmRxBlock) (hp : p ∈ init ++ [previous]) : p.stop ≤ tb.so := by
    have hinit : OrderedRanges.Ordered so stop (init ++ [previous]) :=
      hordered.sublist (by rw [hsame]; exact List.sublist_append_left _ _)
    exact (hinit.stop_le_last hp).trans hprevious
  have hin (p : AmRxBlock) (hp : p ∈ same) (hlt : tb.so < p.stop) : p ∈ rest := by
    rw [hsame] at hp
    exact (List.mem_append.mp hp).resolve_left fun hp ↦ absurd (hinit p hp) (not_le.mpr hlt)
  have hmidPost := List.takeWhile_append_dropWhile (l := rest) (p := fun p ↦ p.stop ≤ tb.stop)
  have hsplitSame : same = (init ++ [previous]) ++ (rest.takeWhile (fun p ↦ p.stop ≤ tb.stop) ++
      rest.dropWhile fun p ↦ p.stop ≤ tb.stop) := by
    rw [hmidPost, hsame]
  constructor
  · rintro ⟨i, hi, hmerged⟩
    have hlt : cut so tb.stop (rest.dropWhile fun p ↦ p.stop ≤ tb.stop) < tb.stop := by
      refine lt_of_le_of_ne hle' fun hsame ↦ ?_
      rw [linkTruncated_none rfl (by omega)] at hi
      cases hi
    obtain ⟨p, hp, hends⟩ := hcut.mp hlt
    refine ⟨⟨p, hrestSub.subset hp, hends⟩, fun q hq hinside ↦ ?_⟩
    have hqMid : q ∈ rest.takeWhile fun p ↦ p.stop ≤ tb.stop := by
      have hqRest := hin q hq hinside.2
      rw [← hmidPost] at hqRest
      exact (List.mem_append.mp hqRest).resolve_right fun hq ↦ absurd hinside.1 (hfree q hq).not_gt
    obtain ⟨x, hx, -, hxso, -⟩ := linkTruncated_eq (before ++ (init ++ [previous]))
      ((rest.dropWhile fun p ↦ p.stop ≤ tb.stop) ++ after) htb (he.content_le tb.sn) hsoEq.le hle (by omega) (.inr (by omega)) (.inl (by simp))
    rw [hx] at hi
    cases hi
    rw [AmInsertion.list, List.append_assoc] at hmerged
    exact h.not_merged he hsplitSame hqMid (by omega) hmerged
  · rintro ⟨⟨p, hp, hlt, hstop⟩, hfull⟩
    have htrimmed := hcut.mpr ⟨p, hin p hp (by omega), hlt, hstop⟩
    refine h.linkTruncated_merged he htb hsplitSame hsoEq.le hle hend (.inr (by omega)) (.inl (by simp)) hinit
      (fun p hp ↦ ⟨?_, stop_le_of_mem_takeWhile hp⟩)
      (fun p hp ↦ ((hordered.sublist hrestSub).mem_dropWhile_iff.mp hp).2)
      fun b hb hlt ↦ absurd (hb.trans_lt hlt) (lt_irrefl _)
    have hmem := (List.takeWhile_sublist _).subset hp
    exact not_lt.mp fun hlt ↦ hfull p (hrestSub.subset hmem) ⟨hlt, hbehind p hmem⟩

end Overlapping

include he htb h in
theorem Split.insertBehind_iff {next : List AmRxBlock} (hsame : same = first :: next)
    (hfirst : first.so ≤ tb.so) (hnot : ∀ p ∈ same, ¬(p.so ≤ tb.so ∧ tb.stop ≤ p.stop)) :
    ExactUnion content e tb (tb.insertBehind before first (next ++ after)) ↔
      Apart same tb ∨ Continues same tb.so ∨ EndsInside same tb.so tb.stop := by
  have hordered := h.ordered he
  have hnonempty := htb.nonempty
  have hlist : e.receiverBuffer ≠ [] := by
    rw [h.receiverBuffer_eq, hsame]
    exact List.append_ne_nil_of_right_ne_nil _ (List.cons_ne_nil _ _)
  rw [h.insertBehind_eq he htb hsame hfirst]
  have hsplit := List.takeWhile_append_dropWhile (l := same) (p := fun p ↦ p.stop ≤ tb.so)
  have hpassed (p : AmRxBlock) (hp : p ∈ same.takeWhile fun p ↦ p.stop ≤ tb.so) : p.stop ≤ tb.so :=
    stop_le_of_mem_takeWhile hp
  have hcur (p : AmRxBlock) (hp : p ∈ same.dropWhile fun p ↦ p.stop ≤ tb.so) : tb.so < p.stop :=
    hordered.lt_stop_of_mem_dropWhile hp
  have hcontinues (hc : Continues same tb.so) : ∃ p ∈ (same.dropWhile fun p ↦ p.stop ≤ tb.so).head?,
      ∀ q ∈ (same.takeWhile fun p ↦ p.stop ≤ tb.so).getLast?, q.stop = p.so := by
    obtain ⟨pre, p, post, rfl, hle, hlt, hlast⟩ := hc
    rw [hordered.takeWhile_eq hle hlt, hordered.dropWhile_eq hle hlt]
    exact ⟨p, rfl, hlast⟩
  generalize same.takeWhile (fun p ↦ p.stop ≤ tb.so) = passed at *
  generalize same.dropWhile (fun p ↦ p.stop ≤ tb.so) = cur at *
  have hin (p : AmRxBlock) (hp : p ∈ cur) : p ∈ same := by
    rw [← hsplit]
    exact List.mem_append_right _ hp
  have hapart (hbehind : ∀ p ∈ cur, tb.stop ≤ p.so) : Apart same tb := by
    intro p hp
    rw [← hsplit] at hp
    rcases List.mem_append.mp hp with hp | hp
    · exact .inl (hpassed p hp)
    · exact .inr (hbehind p hp)
  cases cur with
  | nil =>
    have hnone : ∀ p ∈ ([] : List AmRxBlock), tb.stop ≤ p.so := fun p hp ↦ by cases hp
    have hall : (([] : List AmRxBlock).head?.all fun q ↦ tb.stop ≤ q.so) = true := rfl
    rw [if_pos hall]
    exact iff_of_true (h.link_merged he htb hsplit.symm hpassed hnone hlist) (.inl (hapart hnone))
  | cons p cur =>
    by_cases hp : tb.stop ≤ p.so
    · -- the segment ends before the next one begins
      have hbehind (q : AmRxBlock) (hq : q ∈ p :: cur) : tb.stop ≤ q.so := by
        rcases List.mem_cons.mp hq with rfl | hq
        · exact hp
        · have hrest : OrderedRanges.Ordered so stop (p :: cur) :=
            hordered.sublist (by rw [← hsplit]; exact List.sublist_append_right _ _)
          have hne := hrest.nonempty p List.mem_cons_self
          exact (hp.trans hne.le).trans (hrest.stop_le hq)
      have hall : ((p :: cur).head?.all fun q ↦ tb.stop ≤ q.so) = true := decide_eq_true hp
      rw [if_pos hall]
      exact iff_of_true (h.link_merged he htb hsplit.symm hpassed hbehind hlist) (.inl (hapart hbehind))
    · have hfalse : ¬((p :: cur).head?.all fun q ↦ tb.stop ≤ q.so) = true := by
        simpa using hp
      rw [if_neg hfalse]
      have hoverlap : ¬Apart same tb := by
        intro hapart
        have hlt := hcur p List.mem_cons_self
        rcases hapart p (hin p List.mem_cons_self) with hle | hle <;> omega
      by_cases hnil : passed = []
      · -- it begins in the first one
        rw [if_pos hnil]
        rw [hnil, List.nil_append] at hsplit
        rw [hsame] at hsplit hordered
        obtain ⟨rfl, rfl⟩ := List.cons.inj hsplit
        have hstop := hcur p List.mem_cons_self
        have hle : p.stop ≤ rowStop so stop p.stop cur := hordered.tail.le_rowStop
        have hsplitSame : same = ([] ++ [p]) ++ cur := hsame
        have hunion := h.insertOverlapping_continues he htb hsplitSame hfirst (by omega)
        exact iff_of_true hunion (.inr (.inl ⟨[], p, cur, hsame, hfirst, hstop, fun q hq ↦ by cases hq⟩))
      · obtain ⟨init, previous, rfl⟩ := List.eq_nil_or_concat passed |>.resolve_left hnil
        rw [List.concat_eq_append] at *
        rw [if_neg hnil, List.getLast?_concat, Option.getD_some]
        have hprevious := hpassed previous (List.mem_append_right _ List.mem_cons_self)
        have hpreviousNe := hordered.nonempty previous (by rw [← hsplit]; simp)
        have hrest : OrderedRanges.Ordered so stop (p :: cur) :=
          hordered.sublist (by rw [← hsplit]; exact List.sublist_append_right _ _)
        by_cases hgap : previous.stop = p.so
        · -- the row that holds its first byte goes on from the previous one
          have hstop := hcur p List.mem_cons_self
          have hle : p.stop ≤ rowStop so stop p.stop cur := hrest.tail.le_rowStop
          have hrowStop : rowStop so stop previous.stop (p :: cur) = rowStop so stop p.stop cur := if_pos hgap.symm
          have hunion := h.insertOverlapping_continues he htb hsplit.symm (by omega) (by omega)
          refine iff_of_true hunion (.inr (.inl ⟨_, p, cur, hsplit.symm, by omega, hstop, fun q hq ↦ ?_⟩))
          rw [List.getLast?_concat] at hq
          cases hq
          exact hgap
        · have hcross (q : AmRxBlock) (hq : q ∈ p :: cur) : previous.stop ≤ q.so := by
            rw [← hsplit] at hordered
            exact (List.pairwise_append.mp hordered.disjoint).2.2 previous
              (List.mem_append_right _ List.mem_cons_self) q hq
          have hgaps (q : AmRxBlock) (hq : q ∈ p :: cur) : previous.stop < q.so := by
            have hfirstGap := lt_of_le_of_ne (hcross p List.mem_cons_self) hgap
            rcases List.mem_cons.mp hq with rfl | hq
            · exact hfirstGap
            · have hne := hrest.nonempty p List.mem_cons_self
              exact (hfirstGap.trans hne).trans_le (hrest.stop_le hq)
          rw [h.insertOverlapping_gap he htb hsplit.symm hprevious hgaps hcur fun q hq ↦ hnot q (hin q hq)]
          constructor
          · exact fun hends ↦ .inr (.inr hends)
          · rintro (hapart | hc | hends)
            · exact absurd hapart hoverlap
            · obtain ⟨q, hq, hlast⟩ := hcontinues hc
              cases hq
              rw [List.getLast?_concat] at hlast
              exact absurd (hlast previous rfl) hgap
            · exact hends

include h in
theorem Split.takeWhile_sn : (same ++ after).takeWhile (fun p ↦ p.sn = tb.sn) = same := by
  have hdrop : after.takeWhile (fun p ↦ p.sn = tb.sn) = [] := by
    cases after with
    | nil => rfl
    | cons p after => exact List.takeWhile_cons_of_neg (by simpa using h.sn_ne List.mem_cons_self)
  rw [List.takeWhile_append_of_pos fun p hp ↦ decide_eq_true (h.sn_eq p hp), hdrop, List.append_nil]

include h in
theorem Split.dropWhile_sn (hrest : rest.Sublist same) :
    (rest ++ after).dropWhile (fun p ↦ p.sn = tb.sn) = after := by
  rw [List.dropWhile_append_of_pos fun p hp ↦ decide_eq_true (h.sn_eq p (hrest.subset hp))]
  cases after with
  | nil => rfl
  | cons p after => exact List.dropWhile_cons_of_neg (by simpa using h.sn_ne List.mem_cons_self)

include he htb h in
/-- A PDU that is marked as received is not looked at again. -/
theorem Split.refused_of_marked (hfirst : first ∈ same) (hmarked : first.allSegmentsReceived = true)
    (status : AmRxPduStatus) : ExactUnion content e tb (some (.refused status)) := by
  refine ⟨.refused status, rfl, he.merged_refused fun c hc ↦ ?_⟩
  have hmem : first ∈ e.receiverBuffer := by
    rw [h.receiverBuffer_eq]
    exact List.mem_append_right _ (List.mem_append_left _ hfirst)
  have hsn : first.sn = c.1 := (h.sn_eq first hfirst).trans hc.1
  have hlt := hc.2.2.trans_le htb.stop_le
  rw [hc.1] at hlt
  have hhas := he.complete first hmem hmarked c.2 (by rw [hsn]; exact_mod_cast hlt)
  rw [hsn] at hhas
  exact hhas

include he h in
theorem Split.le_so (hsame : same = first :: rest) (hp : p ∈ same) : first.so ≤ p.so := by
  have hordered := h.ordered he
  rw [hsame] at hordered hp
  rcases List.mem_cons.mp hp with rfl | hp
  · exact le_rfl
  · exact (hordered.nonempty first List.mem_cons_self).le.trans (hordered.stop_le hp)

include he htb h in
theorem Split.handlePduSegment_iff (hsplit : e.split tb.sn = (before, same ++ after))
    (hlist : e.receiverBuffer ≠ []) :
    ExactUnion content e tb (e.rxListHandlePduSegment tb) ↔
      (∃ p ∈ same.head?, p.allSegmentsReceived) ∨ (∃ p ∈ same, p.so ≤ tb.so ∧ tb.stop ≤ p.stop) ∨
        Apart same tb ∨ Continues same tb.so ∨ EndsInside same tb.so tb.stop := by
  have hnonempty := htb.nonempty
  have hsoEq : tb.so = tb.pduInfo.so := rfl
  rw [rxListHandlePduSegment, hsplit]
  dsimp only
  cases hsame : same with
  | nil =>
    have hunion : ExactUnion content e tb (tb.link (before ++ []) ([] ++ after)) :=
      h.link_merged he htb hsame (fun p hp ↦ by cases hp) (fun p hp ↦ by cases hp) hlist
    rw [List.append_nil, List.nil_append] at hunion
    have hapart : Apart [] tb := fun p hp ↦ by cases hp
    refine iff_of_true ?_ (.inr (.inr (.inl hapart)))
    cases after with
    | nil => exact hunion
    | cons p after =>
      rw [List.nil_append]
      dsimp only
      rw [if_pos (h.sn_ne List.mem_cons_self)]
      exact hunion
  | cons first next =>
    subst hsame
    have hfirst : first.sn = tb.sn := h.sn_eq first List.mem_cons_self
    have htake := h.takeWhile_sn
    rw [List.cons_append] at htake ⊢
    dsimp only
    rw [if_neg (not_not.mpr hfirst), htake, he.uint16_end htb]
    by_cases hmarked : first.allSegmentsReceived = true
    · rw [if_pos hmarked]
      exact iff_of_true (h.refused_of_marked he htb List.mem_cons_self hmarked _) (.inl ⟨first, rfl, hmarked⟩)
    rw [if_neg hmarked]
    have hunmarked : ¬∃ p ∈ (first :: next).head?, p.allSegmentsReceived = true := by
      rintro ⟨p, hp, hall⟩
      cases hp
      exact hmarked hall
    by_cases hcontained : ∃ p ∈ first :: next, p.so ≤ tb.so ∧ tb.stop ≤ p.stop
    · have hany : ((first :: next).any fun p ↦ p.so ≤ (tb.pduInfo.so : ℤ) ∧ tb.stop - 1 ≤ p.stop - 1) = true := by
        obtain ⟨p, hp, hle, hstop⟩ := hcontained
        exact List.any_eq_true.mpr ⟨p, hp, decide_eq_true ⟨hle, Int.sub_le_sub_right hstop 1⟩⟩
      rw [if_pos hany]
      refine iff_of_true ⟨_, rfl, he.merged_refused fun c hc ↦ h.hasByte hc.1 ?_⟩ (.inr (.inl hcontained))
      obtain ⟨p, hp, hle, hstop⟩ := hcontained
      exact ⟨p, hp, hle.trans hc.2.1, hc.2.2.trans_le hstop⟩
    have hnotAny : ¬((first :: next).any fun p ↦ p.so ≤ (tb.pduInfo.so : ℤ) ∧ tb.stop - 1 ≤ p.stop - 1) = true := by
      intro hany
      obtain ⟨p, hp, hcontains⟩ := List.any_eq_true.mp hany
      obtain ⟨hle, hstop⟩ := of_decide_eq_true hcontains
      exact hcontained ⟨p, hp, hle, by omega⟩
    have hnot (p : AmRxBlock) (hp : p ∈ first :: next) : ¬(p.so ≤ tb.so ∧ tb.stop ≤ p.stop) :=
      fun hc ↦ hcontained ⟨p, hp, hc⟩
    rw [if_neg hnotAny, or_iff_right hunmarked, or_iff_right hcontained]
    by_cases hzero : first.so = 0
    · rw [if_pos hzero]
      exact h.insertBehind_iff he htb rfl (by omega) hnot
    rw [if_neg hzero]
    by_cases hapart : tb.stop - 1 < first.so
    · rw [if_pos hapart]
      have hbehind (p : AmRxBlock) (hp : p ∈ first :: next) : tb.stop ≤ p.so := by
        have hle := h.le_so he rfl hp
        omega
      have hunion : ExactUnion content e tb (tb.link (before ++ []) (first :: next ++ after)) :=
        h.link_merged he htb rfl (fun p hp ↦ by cases hp) hbehind hlist
      rw [List.append_nil] at hunion
      exact iff_of_true hunion (.inl fun p hp ↦ .inr (hbehind p hp))
    rw [if_neg hapart]
    by_cases hbefore : (tb.pduInfo.so : ℤ) < first.so
    · have hso (p : AmRxBlock) (hp : p ∈ first :: next) : tb.so < p.so := hbefore.trans_le (h.le_so he rfl hp)
      rw [if_pos hbefore]
      refine (h.insertBefore_iff he htb hso).trans ⟨fun hends ↦ ?_, fun hor ↦ ?_⟩
      · exact .inr (.inr ⟨hends, fun p hp hin ↦ absurd hin.1 (hso p hp).not_gt⟩)
      · have hne := (h.partOf he List.mem_cons_self).nonempty
        rcases hor with hall | ⟨pre, p, post, heq, hle, -⟩ | hends
        · rcases hall first List.mem_cons_self with hle | hle <;> omega
        · have hmem : p ∈ first :: next := by
            rw [heq]
            exact List.mem_append_right _ List.mem_cons_self
          exact absurd hle (hso p hmem).not_ge
        · exact hends.1
    · rw [if_neg hbefore]
      exact h.insertBehind_iff he htb rfl (not_lt.mp hbefore) hnot

include he htb h in
/-- A whole PDU replaces its segments, if there is a block next to them. -/
theorem Split.replaced_iff (hall : ∀ p ∈ same, tb.so ≤ p.so ∧ p.stop ≤ tb.stop) :
    ExactUnion content e tb (tb.link before after) ↔ ∃ p ∈ e.receiverBuffer, p.sn ≠ tb.sn := by
  rw [link]
  constructor
  · rintro ⟨i, hi, -⟩
    split_ifs at hi with hnil
    rcases not_and_or.mp hnil with hne | hne
    · obtain ⟨p, hp⟩ := List.exists_mem_of_ne_nil before hne
      refine ⟨p, ?_, fun hsn ↦ ?_⟩
      · rw [h.receiverBuffer_eq]
        exact List.mem_append_left _ hp
      · have hlt := h.offset_lt p hp
        rw [hsn] at hlt
        exact lt_irrefl _ hlt
    · obtain ⟨p, hp⟩ := List.exists_mem_of_ne_nil after hne
      refine ⟨p, ?_, h.sn_ne hp⟩
      rw [h.receiverBuffer_eq]
      exact List.mem_append_right _ (List.mem_append_right _ hp)
  · rintro ⟨p, hp, hne⟩
    have hnil : ¬(before = [] ∧ after = []) := by
      rintro ⟨rfl, rfl⟩
      rw [h.receiverBuffer_eq, List.nil_append, List.append_nil] at hp
      exact hne (h.sn_eq p hp)
    have hsplit : e.Split tb.sn before ([] ++ (same ++ [])) after := by
      rw [List.append_nil, List.nil_append]
      exact h
    exact ⟨.placed before tb after, if_neg hnil, hsplit.merged he rfl htb.carries le_rfl le_rfl
      (fun p hp ↦ by cases hp) hall (fun p hp ↦ by cases hp)
      (fun b hb hlt ↦ absurd (hb.trans_lt hlt) (lt_irrefl _))
      fun b hb hlt ↦ absurd (hb.trans_lt hlt) (lt_irrefl _)⟩

include he htb h in
/-- The bytes of a whole PDU that do not follow its first segments are put in place of the others. -/
theorem Split.copied_merged (hso : tb.so = 0) (hall : ∀ p ∈ same, tb.so ≤ p.so ∧ p.stop ≤ tb.stop) :
    Merged content e tb (before ++ (row so stop 0 same ++
      tb.createNewSegmentFromPdu (uint16 (rowStop so stop 0 same))
        (tb.pduInfo.payloadSize - rowStop so stop 0 same) :: after)) := by
  have hordered := h.ordered he
  have hnonempty := htb.nonempty
  have hlen := he.content_le tb.sn
  have hstopLe := htb.stop_le
  have hle : 0 ≤ rowStop so stop 0 same := hordered.le_rowStop
  have hle' : rowStop so stop 0 same ≤ tb.stop := rowStop_le (by omega) fun p hp ↦ (hall p hp).2
  rw [rlcAmStatusPduSoEndAllBytes] at hlen
  have hsize := payloadSize_eq tb
  have hcast : (uint16 (rowStop so stop 0 same) : ℤ) = rowStop so stop 0 same := by
    rw [uint16]
    omega
  have hsizeNonneg : 0 ≤ tb.pduInfo.payloadSize - rowStop so stop 0 same := by omega
  have hfits : tb.so + uint16 (rowStop so stop 0 same) +
      (tb.pduInfo.payloadSize - rowStop so stop 0 same) ≤ tb.stop := by omega
  obtain ⟨hsn, hxso, hxstop, hcarries⟩ := createNewSegment_spec htb (he.content_le tb.sn) hsizeNonneg hfits
  have hsplitSame : row so stop 0 same ++ same.drop (row so stop 0 same).length = same := row_append_drop _ _
  have hsplit : e.Split tb.sn before
      (row so stop 0 same ++ (same.drop (row so stop 0 same).length ++ [])) after := by
    rw [List.append_nil, hsplitSame]
    exact h
  refine hsplit.merged he hsn hcarries (by omega) (by omega) (fun p hp ↦ ?_)
    (fun p hp ↦ hall p ((List.drop_sublist _ _).subset hp)) (fun p hp ↦ by cases hp) (fun b hb hlt ↦ ?_)
    fun b hb hlt ↦ absurd (hb.trans_lt hlt) (by omega)
  · have hstop := hordered.stop_le_rowStop hp
    omega
  · exact hordered.covered_row_iff.mpr ⟨by omega, by omega⟩

include he htb h in
theorem Split.handlePdu_iff (hsplit : e.split tb.sn = (before, same ++ after))
    (hlist : e.receiverBuffer ≠ []) (hwhole : tb.pduInfo.rf = false) :
    ExactUnion content e tb (e.rxListHandlePdu tb) ↔
      same = [] ∨ (∃ p ∈ same.head?, p.allSegmentsReceived) ∨ (tb.sn = e.vrR ∧ ∃ p ∈ same.head?, p.so = 0) ∨
        ∃ p ∈ e.receiverBuffer, p.sn ≠ tb.sn := by
  obtain ⟨hsoZero, hstop⟩ := htb.whole hwhole
  have hnonempty := htb.nonempty
  rw [rxListHandlePdu, hsplit]
  dsimp only
  cases hsame : same with
  | nil =>
    have hunion : ExactUnion content e tb (tb.link (before ++ []) ([] ++ after)) :=
      h.link_merged he htb hsame (fun p hp ↦ by cases hp) (fun p hp ↦ by cases hp) hlist
    rw [List.append_nil, List.nil_append] at hunion
    refine iff_of_true ?_ (.inl rfl)
    cases after with
    | nil => exact hunion
    | cons p after =>
      rw [List.nil_append]
      dsimp only
      rw [if_pos (h.sn_ne List.mem_cons_self)]
      exact hunion
  | cons first next =>
    subst hsame
    have hfirst : first.sn = tb.sn := h.sn_eq first List.mem_cons_self
    have hdrop := h.dropWhile_sn (List.Sublist.refl _)
    rw [List.cons_append] at hdrop ⊢
    dsimp only
    rw [if_neg (not_not.mpr hfirst), hdrop]
    by_cases hmarked : first.allSegmentsReceived = true
    · rw [if_pos hmarked]
      exact iff_of_true (h.refused_of_marked he htb List.mem_cons_self hmarked _)
        (.inr (.inl ⟨first, rfl, hmarked⟩))
    rw [if_neg hmarked]
    have hunmarked : ¬∃ p ∈ (first :: next).head?, p.allSegmentsReceived = true := by
      rintro ⟨p, hp, hall⟩
      cases hp
      exact hmarked hall
    have hstopLe (p : AmRxBlock) (hp : p ∈ first :: next) : p.stop ≤ tb.stop := by
      have hle := (h.partOf he hp).stop_le
      rw [h.sn_eq p hp] at hle
      rwa [hstop]
    have hstarts (p : AmRxBlock) : tb.so ≤ p.so := hsoZero.trans_le p.so_nonneg
    rw [or_iff_right (List.cons_ne_nil _ _), or_iff_right hunmarked]
    by_cases hreplaced : tb.sn ≠ e.vrR ∨ first.so ≠ 0
    · -- the whole PDU replaces its segments
      rw [if_pos hreplaced]
      have hfalse : ¬(tb.sn = e.vrR ∧ ∃ p ∈ (first :: next).head?, p.so = 0) := by
        rintro ⟨hsn, p, hp, hzero⟩
        cases hp
        exact hreplaced.elim (· hsn) (· hzero)
      rw [or_iff_right hfalse]
      exact h.replaced_iff he htb fun p hp ↦ ⟨hstarts p, hstopLe p hp⟩
    · -- it is cut behind the segments that have been reassembled
      obtain ⟨hsn, hzero⟩ := not_or.mp hreplaced
      rw [not_not] at hsn hzero
      rw [if_neg hreplaced]
      have hrf : first.pduInfo.rf = true := by
        by_contra hrf
        have hmem : first ∈ e.receiverBuffer := by
          rw [h.receiverBuffer_eq]
          exact List.mem_append_right _ List.mem_cons_self
        exact hmarked (he.marked first hmem (Bool.eq_false_iff.mpr hrf))
      have hspan : spanContiguous id tb.sn 0 (first :: next ++ after) =
          (rowStop so stop 0 (first :: next), row so stop 0 (first :: next),
            (first :: next).drop (row so stop 0 (first :: next)).length ++ after) :=
        spanContiguous_same h.sn_eq (fun p ↦ h.sn_ne) fun p hp ↦ rfl
      have hbehind := h.dropWhile_sn (List.drop_sublist (row so stop 0 (first :: next)).length _)
      rw [List.cons_append] at hspan
      rw [if_pos hrf, hspan]
      dsimp only
      rw [hbehind]
      exact iff_of_true ⟨_, rfl, h.copied_merged he htb hsoZero fun p hp ↦ ⟨hstarts p, hstopLe p hp⟩⟩
        (.inl ⟨hsn, first, rfl, hzero⟩)

end Segment

/-- The blocks that the receive list takes without an error: of a PDU that is marked, or of which the
list holds nothing that overlaps; a segment of which the list holds all, or which has its first byte
in a row of stored segments that begins with the first one, or behind a row and its last byte in a
stored segment; a whole PDU with another PDU in the list, or if it is `vrR` and the first byte has
been received. -/
def Insertable (tb : AmRxBlock) (e : AmRxEntity) : Prop :=
  let same := e.segments tb.sn
  if tb.pduInfo.rf then
    (∃ p ∈ same.head?, p.allSegmentsReceived) ∨ (∃ p ∈ same, p.so ≤ tb.so ∧ tb.stop ≤ p.stop) ∨
      Apart same tb ∨ Continues same tb.so ∨ EndsInside same tb.so tb.stop
  else
    same = [] ∨ (∃ p ∈ same.head?, p.allSegmentsReceived) ∨ (tb.sn = e.vrR ∧ ∃ p ∈ same.head?, p.so = 0) ∨
      ∃ p ∈ e.receiverBuffer, p.sn ≠ tb.sn

/-- The reassembly status is no part of what a block holds. -/
theorem exactUnion_reset {insertion : Option AmInsertion} :
    ExactUnion content e { tb with segmentReassembled := .no } insertion ↔ ExactUnion content e tb insertion :=
  exists_congr fun _ ↦ and_congr_right fun _ ↦
    ⟨fun h ↦ ⟨h.sorted, h.carries, h.hasByte_iff⟩, fun h ↦ ⟨h.sorted, h.carries, h.hasByte_iff⟩⟩

/-- A PDU of 20 bytes. -/
def twentyBytes (_ : ℕ) : Bytes := List.replicate 20 0

/-- The parts of PDU 0 have been received. -/
def partly (parts : List (ℕ × ℕ)) : AmRxEntity where
  receiverBuffer := parts.map fun part ↦ received twentyBytes 0 part.1 part.2
  vrR := 0
  vrMr := 512
  vrX := 1
  vrMs := 0
  vrH := 1
  tReordering := ⟨35, 0, 35, true, false⟩
  statusRequested := 0
  snStatusTriggeredDelayed := 0
  reassembled := []

theorem partly_ordered {parts : List (ℕ × ℕ)} (hle : ∀ part ∈ parts, 0 < part.2 ∧ part.1 + part.2 ≤ 20)
    (hsorted : parts.Pairwise fun part part' ↦ part.1 + part.2 ≤ part'.1) :
    (partly parts).Ordered twentyBytes where
  vrR_lt := Nat.zero_lt_succ _
  content_le _ := by
    rw [twentyBytes, List.length_replicate]
    decide
  partOf := List.forall_mem_map.mpr fun part hpart ↦
    received_partOf (by decide) (hle part hpart).1 (hle part hpart).2
  sorted := List.pairwise_map.mpr (hsorted.imp fun {part part'} h ↦ .inr ⟨rfl, by
    change (part.1 : ℤ) + part.2 ≤ part'.1
    exact_mod_cast h⟩)
  complete := List.forall_mem_map.mpr fun part hpart h ↦ Bool.noConfusion h
  marked := List.forall_mem_map.mpr fun part hpart h ↦ Bool.noConfusion h

end AmRxEntity

end EdgeSlice.Rlc
