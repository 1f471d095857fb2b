import EdgeSlice.Mac.DlschRoundTrip
import EdgeSlice.Mac.ScheduleUeSpec

namespace EdgeSlice.Mac

open ByteMemory Chain MonotoneSearch

/-- The block is laid out as planned: the header has the length that was
predicted for it, and header, SDUs and padding are the whole block. The first
byte of `post_padding` is a subheader. -/
structure DlschPdu.Sized (p : DlschPdu) : Prop where
  predicted : p.headerLenDcch + p.headerLenDtch + p.taLen + p.padding +
    (if 0 < p.postPadding then 1 else 0) = p.offset
  fits : p.offset + p.sduLengthTotal ≤ p.tbs
  filled : p.offset + p.sduLengthTotal + (p.postPadding - 1) = p.tbs

section

variable (buf : ℕ → ℕ) (sdus : List (ℕ × List ℕ)) (taUpdate : ℤ)

/-- The offset that `generate_dlsch_header` returns for a new transmission. -/
def dlschOffset (shortPadding postPadding : ℕ) : ℕ :=
  (generateDlschHeader buf (sduLengths sdus) 255 taUpdate none shortPadding postPadding).2

variable {sdus}

theorem dlschElements_taLen : ((dlschElements 255 taUpdate none).map Prod.fst).length +
    ((dlschElements 255 taUpdate none).flatMap Prod.snd).length =
      if taUpdate ≠ 0 then 2 else 0 := by
  by_cases hta : taUpdate = 0 <;> simp [dlschElements, hta]

theorem dlschOffset_eq (hfew : sdus.length ≤ nbRbMax) (shortPadding postPadding : ℕ)
    (hne : dlschItems (sduLengths sdus) 255 taUpdate none shortPadding postPadding ≠ []) :
    dlschOffset buf sdus taUpdate shortPadding postPadding =
      (chain Subheader.encode (headerItems (HeaderState.padCount shortPadding)
        ((dlschElements 255 taUpdate none).map Prod.fst) (sduLengths sdus) postPadding)).length +
      ((dlschElements 255 taUpdate none).flatMap Prod.snd).length := by
  have hlength : (sduLengths sdus).length ≤ nbRbMax := by
    rwa [sduLengths, List.length_map]
  unfold dlschOffset
  rw [(generateDlschHeader_spec buf (sduLengths sdus) 255 taUpdate none shortPadding postPadding
    hne).2, uint8_of_lt (dlschOctets_length _ taUpdate none shortPadding postPadding hlength)]
  exact List.length_append

theorem dlschOffset_padded (hfew : sdus.length ≤ nbRbMax) {postPadding : ℕ}
    (hpost : 0 < postPadding) :
    dlschOffset buf sdus taUpdate 0 postPadding =
      headerLen sdus + 1 + if taUpdate ≠ 0 then 2 else 0 := by
  have hne : dlschItems (sduLengths sdus) 255 taUpdate none 0 postPadding ≠ [] :=
    headerItems_ne_nil.mpr (.inr (.inr (.inr hpost)))
  rw [dlschOffset_eq buf taUpdate hfew 0 postPadding hne, padded_length _ _ _ hpost,
    ← dlschElements_taLen taUpdate, HeaderState.padCount, if_neg (by decide), if_neg (by decide)]
  omega

variable (sdus) in
theorem dlschOffset_bare (last : ℕ × List ℕ) (hfew : (sdus ++ [last]).length ≤ nbRbMax)
    {shortPadding : ℕ} (hshort : shortPadding ≤ 2) :
    dlschOffset buf (sdus ++ [last]) taUpdate shortPadding 0 =
      shortPadding + headerLen sdus + 1 + if taUpdate ≠ 0 then 2 else 0 := by
  have hne : dlschItems (sduLengths (sdus ++ [last])) 255 taUpdate none shortPadding 0 ≠ [] :=
    headerItems_ne_nil.mpr (.inr (.inr (.inl (by simp [sduLengths]))))
  have hpads := padCount_of_le hshort
  rw [dlschOffset_eq buf taUpdate hfew shortPadding 0 hne, bare_length, hpads,
    ← dlschElements_taLen taUpdate]
  omega

/-- Without SDUs the offset is one byte even when there is nothing to write. -/
theorem dlschOffset_empty {shortPadding : ℕ} (hshort : shortPadding ≤ 2) :
    dlschOffset buf [] taUpdate shortPadding 0 =
      if taUpdate = 0 ∧ shortPadding = 0 then 1
      else shortPadding + if taUpdate ≠ 0 then 2 else 0 := by
  have hpads := padCount_of_le hshort
  split
  · next h =>
    rw [h.1, h.2]
    rfl
  · next h =>
    have hne : dlschItems (sduLengths []) 255 taUpdate none shortPadding 0 ≠ [] := by
      apply headerItems_ne_nil.mpr
      rcases Nat.eq_zero_or_pos shortPadding with hzero | hpos
      · refine .inr (.inl ?_)
        have hta : taUpdate ≠ 0 := fun hta ↦ h ⟨hta, hzero⟩
        simp [dlschElements, hta]
      · exact .inl (by rw [hpads]; exact hpos)
    rw [dlschOffset_eq buf taUpdate (by decide) shortPadding 0 hne]
    have hlength := control_length (HeaderState.padCount shortPadding)
      ((dlschElements 255 taUpdate none).map Prod.fst)
    have hnil : sduLengths [] = [] := rfl
    rw [hnil, hlength, hpads, ← dlschElements_taLen taUpdate]
    omega

end

namespace DlschMux

variable (m : DlschMux)

/-- The header lengths without the length field of the last SDU, together. -/
def shortHeader : ℕ := m.shorten.headerLenDcch + m.shorten.headerLenDtch

/-- The header lengths that are put back for a block with more padding. -/
def fullHeader : ℕ :=
  if m.shorten.headerLenDtch = 0 then m.headerLenDcch
  else m.shorten.headerLenDcch + m.headerLenDtch

variable {m}

theorem shorten_total : m.shorten.sduLengthTotal = m.sduLengthTotal := by
  unfold shorten
  split <;> rfl

theorem need_eq (taLen : ℕ) :
    m.shorten.need taLen = m.sduLengthTotal + m.shortHeader + taLen := by
  rw [need, shorten_total, shortHeader, Nat.add_assoc m.sduLengthTotal]

end DlschMux

theorem padBlock_over {m : DlschMux} {taLen tbs : ℕ} (h : tbs < m.shorten.need taLen) :
    (padBlock m taLen tbs).lengths = m.shorten ∧ (padBlock m taLen tbs).postPadding = 0 := by
  unfold DlschMux.need at h
  unfold padBlock
  dsimp only
  rw [if_pos (by omega)]
  exact ⟨rfl, rfl⟩

theorem padBlock_short {m : DlschMux} {taLen r : ℕ} (hr : r ≤ 2) :
    padBlock m taLen (m.shorten.need taLen + r) = ⟨m.shorten, r, 0⟩ := by
  have hrest : ((m.shorten.need taLen + r : ℕ) : ℤ) - m.shorten.headerLenDcch -
      m.shorten.headerLenDtch - m.shorten.sduLengthTotal - taLen = r := by
    unfold DlschMux.need
    omega
  unfold padBlock
  dsimp only
  rw [hrest, if_pos (by omega), uint16_of_lt (by omega)]

theorem padBlock_long {m : DlschMux} {taLen r : ℕ} (hr : 3 ≤ r)
    (hfull : m.fullHeader ≤ m.shortHeader + 3) (hlt : m.shorten.need taLen + r < 65536) :
    (padBlock m taLen (m.shorten.need taLen + r)).lengths.headerLenDcch +
      (padBlock m taLen (m.shorten.need taLen + r)).lengths.headerLenDtch = m.fullHeader ∧
    (padBlock m taLen (m.shorten.need taLen + r)).padding = 0 ∧
    (padBlock m taLen (m.shorten.need taLen + r)).postPadding =
      m.shortHeader + r - m.fullHeader := by
  have hpost : ∀ a b : ℕ, a + b = m.fullHeader →
      uint16 (((m.shorten.need taLen + r : ℕ) : ℤ) - m.shorten.sduLengthTotal - a - b - taLen) =
        m.shortHeader + r - m.fullHeader := by
    intro a b hab
    rw [DlschMux.need_eq, DlschMux.shorten_total]
    rw [DlschMux.need_eq] at hlt
    have hrest : ((m.sduLengthTotal + m.shortHeader + taLen + r : ℕ) : ℤ) - m.sduLengthTotal - a -
        b - taLen = (m.shortHeader + r - m.fullHeader : ℕ) := by omega
    rw [hrest, uint16_of_lt (by omega)]
  unfold padBlock
  dsimp only
  rw [if_neg (by unfold DlschMux.need; omega)]
  unfold DlschMux.fullHeader at hpost ⊢
  split
  · next hzero =>
    rw [if_pos hzero] at hpost
    refine ⟨by rw [hzero]; rfl, rfl, ?_⟩
    exact hpost _ _ (by rw [hzero]; rfl)
  · next hzero =>
    rw [if_neg hzero] at hpost
    exact ⟨rfl, rfl, hpost _ _ rfl⟩

section

variable (table : TbsTable) (g : DlGrant) (m : DlschMux) (buf fill : ℕ → ℕ)

theorem transmit_sized_iff_padBlock (tbs : ℕ) (htbs : (transmit table g m buf fill).tbs = tbs) :
    (transmit table g m buf fill).Sized ↔
      (padBlock m g.taLen tbs).lengths.headerLenDcch +
          (padBlock m g.taLen tbs).lengths.headerLenDtch + g.taLen +
          (padBlock m g.taLen tbs).padding +
          (if 0 < (padBlock m g.taLen tbs).postPadding then 1 else 0) =
        dlschOffset buf m.sdus g.taUpdate (uint8 (padBlock m g.taLen tbs).padding)
          (padBlock m g.taLen tbs).postPadding ∧
      dlschOffset buf m.sdus g.taUpdate (uint8 (padBlock m g.taLen tbs).padding)
          (padBlock m g.taLen tbs).postPadding + m.sduLengthTotal +
          ((padBlock m g.taLen tbs).postPadding - 1) = tbs := by
  subst htbs
  refine ⟨fun h ↦ ⟨h.predicted, h.filled⟩, fun h ↦ ⟨h.1, ?_, h.2⟩⟩
  exact (Nat.le_add_right _ _).trans_eq h.2

/-- Whether a block is laid out as planned depends on the offset for the bytes
that it leaves over. -/
theorem transmit_sized_iff_offset (hfull : m.fullHeader ≤ m.shortHeader + 3) :
    (transmit table g m buf fill).Sized ↔
      ∃ r, (transmit table g m buf fill).tbs = m.shorten.need g.taLen + r ∧
        ((r ≤ 2 ∧ m.shortHeader + g.taLen + r = dlschOffset buf m.sdus g.taUpdate r 0) ∨
        (3 ≤ r ∧ m.fullHeader + g.taLen +
            (if 0 < m.shortHeader + r - m.fullHeader then 1 else 0) =
          dlschOffset buf m.sdus g.taUpdate 0 (m.shortHeader + r - m.fullHeader))) := by
  have hlt : (transmit table g m buf fill).tbs < 65536 := table.tbs_lt _ _
  have hneed := DlschMux.need_eq (m := m) g.taLen
  generalize htbs : (transmit table g m buf fill).tbs = tbs at hlt ⊢
  rw [transmit_sized_iff_padBlock table g m buf fill tbs htbs]
  rcases Nat.lt_or_ge tbs (m.shorten.need g.taLen) with hover | hfits
  · obtain ⟨hlengths, hpost⟩ := padBlock_over hover
    have hshort : m.shorten.headerLenDcch + m.shorten.headerLenDtch = m.shortHeader := rfl
    rw [hlengths, hpost]
    constructor
    · intro h
      obtain ⟨hpredicted, hfilled⟩ := h
      omega
    · intro h
      obtain ⟨r, hr, -⟩ := h
      omega
  · obtain ⟨r, rfl⟩ := Nat.exists_eq_add_of_le hfits
    have hunique : ∀ P : ℕ → Prop, (∃ r', m.shorten.need g.taLen + r =
        m.shorten.need g.taLen + r' ∧ P r') ↔ P r := by
      intro P
      exact ⟨fun ⟨r', h, hP⟩ ↦ Nat.add_left_cancel h ▸ hP, fun h ↦ ⟨r, rfl, h⟩⟩
    rw [hunique]
    by_cases hr : r ≤ 2
    · have hshort : m.shorten.headerLenDcch + m.shorten.headerLenDtch = m.shortHeader := rfl
      have hbyte : uint8 r = r := uint8_of_lt (by omega)
      simp only [padBlock_short hr, hbyte, Nat.lt_irrefl, if_false]
      omega
    · obtain ⟨hlengths, hpadding, hpost⟩ := padBlock_long (by omega) hfull hlt
      rw [hlengths, hpadding, hpost, uint8_of_lt (by omega : 0 < 256)]
      split <;> omega

end

/-- The header lengths agree when a block leaves `r` bytes over. Without DTCH
data the subheader lengths of the DCCH SDUs are guessed. With it, the last DTCH
SDU has to be long, or come from the last logical channel asked. -/
def HeadersAgree (dcchSdus dtchSdus : List (ℕ × List ℕ)) (taLen r : ℕ) : Prop :=
  match dtchSdus.getLast? with
  | none =>
    match dcchSdus with
    | [] => taLen = 0 ∧ r = 0
    | [sdu] => sdu.2.length < 128 ∨ r ≤ 2
    | sdu :: next :: _ => (r = 3 ∧ 128 ≤ sdu.2.length) ∨
        (4 ≤ r ∧ sdu.2.length < 128 ∧ next.2.length < 128)
  | some last => (∀ sdu ∈ dcchSdus, sdu.2.length < 128) ∧
      (128 ≤ last.2.length ∨ last.1 = dtch ∨ (3 ≤ r ∧ 2 ≤ dtchSdus.length))

namespace Collected

variable {m : DlschMux} {tbs taLen : ℕ}

theorem nothing (h : Collected m tbs taLen) (hnone : m.sdus = []) (hroom : taLen + 2 < tbs) :
    m.sduLengthTotal + m.headerLenDcch + m.headerLenDtch = 0 := by
  obtain ⟨hdcch, hdtch⟩ := List.append_eq_nil_iff.mp hnone
  have htotal : m.sduLengthTotal = 0 := by rw [h.total, hnone]; rfl
  have hlen : m.headerLenDtch = 0 := by rw [h.headerLenDtch, hdtch]; rfl
  rcases h.headerLenDcch with ⟨-, hlong⟩ | ⟨hfull, -, -⟩
  · rw [hdcch, List.length_nil] at hlong
    omega
  · omega

theorem of_nothing (h : Collected m tbs taLen)
    (hzero : m.sduLengthTotal + m.headerLenDcch + m.headerLenDtch = 0) :
    m.sdus = [] ∧ taLen + 2 < tbs := by
  rcases h.headerLenDcch with ⟨hroom, hlong⟩ | ⟨-, hshort, -⟩
  · have hdcch : m.dcchSdus = [] := List.length_eq_zero_iff.mp (by omega)
    have hdtch : m.dtchSdus = [] := by
      have hcount := (headerLen_short m.dtchSdus).1
      rw [← h.headerLenDtch] at hcount
      exact List.length_eq_zero_iff.mp (by omega)
    exact ⟨by rw [DlschMux.sdus, hdcch, hdtch]; rfl, hroom⟩
  · omega

theorem dcch_pos (h : Collected m tbs taLen) (hdtch : m.dtchSdus = [])
    (hsend : 0 < m.sduLengthTotal + m.headerLenDcch + m.headerLenDtch) :
    0 < m.headerLenDcch := by
  rcases h.headerLenDcch with ⟨hroom, hlong⟩ | ⟨-, hshort, -⟩
  · by_contra hzero
    have hnone : m.sdus = [] := by
      rw [DlschMux.sdus, hdtch, List.append_nil]
      exact List.length_eq_zero_iff.mp (by omega)
    have := h.nothing hnone hroom
    omega
  · omega

theorem dcch_lengths (h : Collected m tbs taLen) (hdtch : m.dtchSdus = [])
    (hpos : 0 < m.headerLenDcch) :
    m.shortHeader = 1 ∧ m.fullHeader = m.headerLenDcch := by
  have hzero : m.headerLenDtch = 0 := by rw [h.headerLenDtch, hdtch]; rfl
  have hshort : m.shorten = { m with headerLenDcch := 1 } := by
    rw [DlschMux.shorten, if_pos hzero, if_pos hpos]
  unfold DlschMux.shortHeader DlschMux.fullHeader
  simp [hshort, hzero]

theorem dtch_lengths (h : Collected m tbs taLen) {front : List (ℕ × List ℕ)} {last : ℕ × List ℕ}
    (hdtch : m.dtchSdus = front ++ [last]) :
    m.headerLenDcch = 2 * m.dcchSdus.length ∧
    m.shortHeader = 2 * m.dcchSdus.length + headerLen front +
      (if 128 ≤ last.2.length ∨ last.1 = dtch then 1 else 0) ∧
    m.fullHeader = 2 * m.dcchSdus.length +
      if headerLen front + (if 128 ≤ last.2.length ∨ last.1 = dtch then 1 else 0) = 0 then 0
      else headerLen front + sduHeaderLen last.2.length := by
  have hne : m.dtchSdus ≠ [] := by simp [hdtch]
  have hb := sduHeaderLen_bounds last.2.length
  have htwo := sduHeaderLen_eq_two last.2.length
  have hdcch : m.headerLenDcch = 2 * m.dcchSdus.length := by
    rcases h.headerLenDcch with h' | ⟨-, -, hnone⟩
    · exact h'.2
    · simp [DlschMux.sdus, hdtch] at hnone
  have hlen : m.headerLenDtch = headerLen front + sduHeaderLen last.2.length := by
    rw [h.headerLenDtch, hdtch]
    simp
  have hlast : m.headerLenDtchLast = if last.1 = dtch ∧ last.2.length < 128 then 2 else 3 := by
    rw [h.headerLenDtchLast hne, hdtch]
    simp [dtchLast]
  have hshorten : m.shorten.headerLenDcch = m.headerLenDcch ∧ m.shorten.headerLenDtch =
      headerLen front + if 128 ≤ last.2.length ∨ last.1 = dtch then 1 else 0 := by
    rw [DlschMux.shorten, if_neg (by omega)]
    refine ⟨rfl, ?_⟩
    dsimp only
    rw [hlen, hlast]
    split <;> split <;> omega
  refine ⟨hdcch, ?_, ?_⟩
  · rw [DlschMux.shortHeader, hshorten.1, hshorten.2, hdcch, Nat.add_assoc]
  · rw [DlschMux.fullHeader, hshorten.1, hshorten.2, hdcch, hlen]
    split <;> split <;> rfl

end Collected

section

variable (g : DlGrant) (buf : ℕ → ℕ)

def OffsetsAgree (sdus : List (ℕ × List ℕ)) (short full r : ℕ) : Prop :=
  (r ≤ 2 ∧ short + g.taLen + r = dlschOffset buf sdus g.taUpdate r 0) ∨
  (3 ≤ r ∧ full + g.taLen + (if 0 < short + r - full then 1 else 0) =
    dlschOffset buf sdus g.taUpdate 0 (short + r - full))

theorem offsetsAgree_empty (r : ℕ) :
    OffsetsAgree g buf [] 1 2 r ↔ g.taLen = 0 ∧ r = 0 := by
  have hta : (if g.taUpdate ≠ 0 then 2 else 0) = g.taLen := rfl
  have hzero : g.taUpdate = 0 ↔ g.taLen = 0 := by
    unfold DlGrant.taLen
    split <;> omega
  unfold OffsetsAgree
  by_cases hr : r ≤ 2
  · rw [dlschOffset_empty buf g.taUpdate hr, hta]
    split <;> omega
  · rw [dlschOffset_padded buf g.taUpdate (by decide) (by omega), hta, if_pos (by omega),
      headerLen_nil]
    omega

theorem offsetsAgree_one (sdu : ℕ × List ℕ) (r : ℕ) :
    OffsetsAgree g buf [sdu] 1 2 r ↔ sdu.2.length < 128 ∨ r ≤ 2 := by
  have hta : (if g.taUpdate ≠ 0 then 2 else 0) = g.taLen := rfl
  unfold OffsetsAgree
  rw [← sduHeaderLen_eq_two]
  by_cases hr : r ≤ 2
  · have hoffset := dlschOffset_bare buf [] g.taUpdate sdu (by simp [nbRbMax]) hr
    rw [List.nil_append, hta, headerLen_nil] at hoffset
    omega
  · rw [dlschOffset_padded buf g.taUpdate (by simp [nbRbMax]) (by omega), hta, if_pos (by omega),
      headerLen_cons, headerLen_nil]
    omega

theorem offsetsAgree_two (sdu next : ℕ × List ℕ) (r : ℕ) :
    OffsetsAgree g buf [sdu, next] 1 4 r ↔ (r = 3 ∧ 128 ≤ sdu.2.length) ∨
      (4 ≤ r ∧ sdu.2.length < 128 ∧ next.2.length < 128) := by
  have hta : (if g.taUpdate ≠ 0 then 2 else 0) = g.taLen := rfl
  have hbare : ∀ n ≤ 2, dlschOffset buf [sdu, next] g.taUpdate n 0 =
      n + sduHeaderLen sdu.2.length + 1 + g.taLen := by
    intro n hn
    have hoffset := dlschOffset_bare buf [sdu] g.taUpdate next (by simp [nbRbMax]) hn
    rwa [hta, headerLen_cons, headerLen_nil, Nat.add_zero] at hoffset
  have hb := sduHeaderLen_bounds sdu.2.length
  have hb' := sduHeaderLen_bounds next.2.length
  have hlong : 128 ≤ sdu.2.length ↔ ¬ sduHeaderLen sdu.2.length = 2 := by
    rw [sduHeaderLen_eq_two]
    omega
  unfold OffsetsAgree
  rw [hlong, ← sduHeaderLen_eq_two, ← sduHeaderLen_eq_two]
  by_cases hr : r ≤ 2
  · rw [hbare r hr]
    omega
  · rcases Nat.eq_or_lt_of_le (by omega : 3 ≤ r) with rfl | hr
    · simp only [Nat.reduceAdd, Nat.sub_self, Nat.lt_irrefl, if_false, hbare 0 (by decide),
        true_and]
      omega
    · rw [dlschOffset_padded buf g.taUpdate (by simp [nbRbMax]) (by omega), hta, if_pos (by omega),
        headerLen_cons, headerLen_cons, headerLen_nil]
      omega

theorem offsetsAgree_dtch (dcchSdus front : List (ℕ × List ℕ)) (last : ℕ × List ℕ) (r : ℕ)
    (hfew : (dcchSdus ++ front ++ [last]).length ≤ nbRbMax) {k short full : ℕ}
    (hk : k = if 128 ≤ last.2.length ∨ last.1 = dtch then 1 else 0)
    (hshort : short = 2 * dcchSdus.length + headerLen front + k)
    (hfull : full = 2 * dcchSdus.length +
      if headerLen front + k = 0 then 0 else headerLen front + sduHeaderLen last.2.length) :
    OffsetsAgree g buf (dcchSdus ++ front ++ [last]) short full r ↔
      (∀ sdu ∈ dcchSdus, sdu.2.length < 128) ∧
      (128 ≤ last.2.length ∨ last.1 = dtch ∨ (3 ≤ r ∧ 2 ≤ (front ++ [last]).length)) := by
  have hta : (if g.taUpdate ≠ 0 then 2 else 0) = g.taLen := rfl
  obtain ⟨hle, hiff⟩ := headerLen_short dcchSdus
  have hb := sduHeaderLen_bounds last.2.length
  have htwo := sduHeaderLen_eq_two last.2.length
  have hfront : headerLen front = 0 ∧ front.length = 0 ∨ 0 < headerLen front ∧ 0 < front.length := by
    cases front with
    | nil => exact .inl ⟨rfl, rfl⟩
    | cons sdu front =>
      have := sduHeaderLen_bounds sdu.2.length
      rw [headerLen_cons]
      exact .inr ⟨by omega, by simp⟩
  have hlength : (front ++ [last]).length = front.length + 1 := by simp
  unfold OffsetsAgree
  rw [← hiff, hlength]
  by_cases hr : r ≤ 2
  · rw [dlschOffset_bare buf _ g.taUpdate last hfew hr, hta, headerLen_append]
    split at hk <;> omega
  · have hpost : 0 < short + r - full := by
      split at hfull <;> split at hk <;> omega
    rw [dlschOffset_padded buf g.taUpdate hfew hpost, hta, if_pos hpost, headerLen_append,
      headerLen_append, headerLen_cons, headerLen_nil]
    split at hfull <;> split at hk <;> omega

end

section

variable (table : TbsTable) (g : DlGrant) (buf fill : ℕ → ℕ) {m : DlschMux} {offered : ℕ}

theorem transmit_sized_iff (hm : Collected m offered g.taLen)
    (hsend : 0 < m.sduLengthTotal + m.headerLenDcch + m.headerLenDtch) :
    (transmit table g m buf fill).Sized ↔
      ∃ r, (transmit table g m buf fill).tbs = m.shorten.need g.taLen + r ∧
        HeadersAgree m.dcchSdus m.dtchSdus g.taLen r := by
  have hcount : m.sdus.length ≤ nbRbMax := by
    have h₁ := hm.dcch_length
    have h₂ := hm.dtch_length
    rw [DlschMux.sdus, List.length_append, nbRbMax]
    omega
  have hlayout : ∀ short full, m.shortHeader = short → m.fullHeader = full → full ≤ short + 3 →
      (∀ r, OffsetsAgree g buf m.sdus short full r ↔
        HeadersAgree m.dcchSdus m.dtchSdus g.taLen r) →
      ((transmit table g m buf fill).Sized ↔
        ∃ r, (transmit table g m buf fill).tbs = m.shorten.need g.taLen + r ∧
          HeadersAgree m.dcchSdus m.dtchSdus g.taLen r) := by
    rintro short full rfl rfl hle hagree
    rw [transmit_sized_iff_offset table g m buf fill hle]
    exact exists_congr fun r ↦ and_congr_right fun _ ↦ hagree r
  rcases m.dtchSdus.eq_nil_or_concat' with hdtch | ⟨front, last, hdtch⟩
  · have hsdus : m.sdus = m.dcchSdus := by rw [DlschMux.sdus, hdtch, List.append_nil]
    have hpos := hm.dcch_pos hdtch hsend
    obtain ⟨hshort, hfull⟩ := hm.dcch_lengths hdtch hpos
    have hlen : m.headerLenDcch = if m.dcchSdus = [] then 2 else 2 * m.dcchSdus.length := by
      rcases hm.headerLenDcch with ⟨-, h⟩ | ⟨-, h, hnone⟩
      · split
        · next hempty => simp [hempty] at h; omega
        · exact h
      · rw [hsdus] at hnone
        rw [if_pos hnone, h]
    have hle := hm.dcch_length
    rw [hsdus, hdtch] at hlayout
    rw [hdtch]
    generalize m.dcchSdus = sdus at hlen hle hlayout ⊢
    cases sdus with
    | nil => exact hlayout 1 2 hshort (hfull.trans hlen) (by decide) (offsetsAgree_empty g buf)
    | cons sdu rest =>
      cases rest with
      | nil => exact hlayout 1 2 hshort (hfull.trans hlen) (by decide) (offsetsAgree_one g buf sdu)
      | cons next rest =>
        have hnil : rest = [] := List.eq_nil_of_length_eq_zero (by simpa using hle)
        subst hnil
        exact hlayout 1 4 hshort (hfull.trans hlen) (by decide) (offsetsAgree_two g buf sdu next)
  · obtain ⟨-, hshort, hfull⟩ := hm.dtch_lengths hdtch
    have hsdus : m.sdus = m.dcchSdus ++ front ++ [last] := by
      rw [DlschMux.sdus, hdtch, List.append_assoc]
    refine hlayout _ _ hshort hfull ?_ fun r ↦ ?_
    · have hb := sduHeaderLen_bounds last.2.length
      generalize (if 128 ≤ last.2.length ∨ last.1 = dtch then 1 else 0) = k
      split <;> omega
    · rw [hsdus] at hcount ⊢
      rw [offsetsAgree_dtch g buf m.dcchSdus front last r hcount rfl rfl rfl, hdtch]
      simp [HeadersAgree]

end

/-- The size asked of the block, from the SDUs that RLC gave. -/
def blockTarget (dcchSdus dtchSdus : List (ℕ × List ℕ)) (taLen : ℕ) : ℕ :=
  sduBytes dcchSdus + sduBytes dtchSdus + taLen +
    match dtchSdus.getLast? with
    | none => 1
    | some last => 2 * dcchSdus.length + headerLen dtchSdus.dropLast +
        if 128 ≤ last.2.length ∨ last.1 = dtch then 1 else 0

theorem Collected.need_eq {m : DlschMux} {offered taLen : ℕ} (h : Collected m offered taLen)
    (hsend : 0 < m.sduLengthTotal + m.headerLenDcch + m.headerLenDtch) :
    m.shorten.need taLen = blockTarget m.dcchSdus m.dtchSdus taLen := by
  rw [DlschMux.need_eq, h.total, DlschMux.sdus, sduBytes_append, blockTarget]
  rcases m.dtchSdus.eq_nil_or_concat' with hdtch | ⟨front, last, hdtch⟩
  · rw [(h.dcch_lengths hdtch (h.dcch_pos hdtch hsend)).1, hdtch]
    simp only [sduBytes_nil, List.getLast?_nil]
    omega
  · rw [(h.dtch_lengths hdtch).2.1, hdtch]
    simp only [List.getLast?_concat, List.dropLast_concat]
    omega

/-- The first of `first`, `first + step`, ... whose block is large enough, as far
as resource blocks are available. -/
def neededRbs (table : TbsTable) (mcs first step available target : ℕ) : ℕ :=
  ((first :: (List.range' (first + step) available step).filter (· ≤ available)).find?
    (fun nbRb ↦ target ≤ table.tbs mcs nbRb)).getD available

theorem growRbs_succ (table : TbsTable) (mcs target available fuel : ℕ) {unit : ℤ} (hu : 1 ≤ unit)
    {first : ℕ} (hfirst : first + unit < 65536) :
    growRbs table.tbs mcs available target unit (fuel + 1) first =
      if table.tbs mcs first < target then
        if available < first + unit.toNat then available
        else growRbs table.tbs mcs available target unit fuel (first + unit.toNat)
      else first := by
  have hnext : uint16 (first + unit) = first + unit.toNat := by
    unfold uint16
    omega
  rw [growRbs, uint16_of_lt (table.tbs_lt mcs first), hnext]

theorem growRbs_eq (table : TbsTable) (mcs target : ℕ) {unit : ℤ} (hu : 1 ≤ unit) {available : ℕ}
    (havail : available + unit < 65536) {fuel first : ℕ} (hfirst : first + unit < 65536)
    (hfuel : available ≤ fuel + first) :
    growRbs table.tbs mcs available target unit (fuel + 1) first =
      ((first :: (List.range' (first + unit.toNat) fuel unit.toNat).filter (· ≤ available)).find?
        (fun nbRb ↦ target ≤ table.tbs mcs nbRb)).getD available := by
  induction fuel generalizing first with
  | zero =>
    rw [growRbs_succ table mcs target available 0 hu hfirst]
    by_cases hfits : target ≤ table.tbs mcs first
    · simp [hfits]
    · rw [if_pos (not_le.mp hfits), if_pos (by omega)]
      simp [hfits]
  | succ fuel ih =>
    rw [growRbs_succ table mcs target available (fuel + 1) hu hfirst]
    by_cases hfits : target ≤ table.tbs mcs first
    · simp [hfits]
    · rw [if_pos (not_le.mp hfits), List.find?_cons_of_neg (by simpa using hfits),
        List.range'_succ]
      split
      · next hover =>
        have hnone : ((first + unit.toNat) ::
            List.range' (first + unit.toNat + unit.toNat) fuel unit.toNat).filter (· ≤ available) =
            [] := by
          rw [← List.range'_succ, List.filter_eq_nil_iff]
          intro n hn
          obtain ⟨i, -, rfl⟩ := List.mem_range'.mp hn
          simp only [decide_eq_true_eq]
          omega
        rw [hnone]
        rfl
      · next hroom =>
        rw [ih (by omega) (by omega), List.filter_cons_of_pos (by simpa using not_lt.mp hroom)]

theorem DlGrant.nbRb_eq (g : DlGrant) (table : TbsTable) (target : ℕ) :
    g.nbRb table target =
      neededRbs table g.mcs1 g.firstRbs g.minRbUnit.toNat g.nbAvailableRb target := by
  have hu := getMinRbUnit_bounds g.bandwidth.nRbDl
  have havail := g.nbAvailableRb_le
  have hfirst : (g.firstRbs : ℤ) ≤ 4 := by
    unfold DlGrant.firstRbs DlGrant.minRbUnit
    split <;> omega
  unfold nRbgMax at havail
  exact growRbs_eq table g.mcs1 target hu.1 (by omega) (by omega) (by omega)

/-- The smallest block with `nbRb` resource blocks that has the size asked. -/
def BestBlock (table : TbsTable) (nbRb target tbs : ℕ) : Prop :=
  IsLeast {t | target ≤ t ∧ ∃ mcs ≤ 28, table.tbs mcs nbRb = t} tbs

theorem DlGrant.mcs_bestBlock (g : DlGrant) (table : TbsTable) (hpow : 0 < g.dlPowOff)
    (target nbRb : ℕ) (P : ℕ → Prop) :
    (∃ tbs, BestBlock table nbRb target tbs ∧ P tbs) ↔
      target ≤ table.tbs (g.mcs table target nbRb) nbRb ∧
        P (table.tbs (g.mcs table target nbRb) nbRb) := by
  have hmax : g.maxMcs = 28 := if_pos hpow
  have hsearch := search_isLeast target (table.tbs_mono nbRb) (le_refl 28) (cqiToMcs_le g.dlCqi) P
  unfold DlGrant.mcs
  rw [hmax]
  exact hsearch

/-- A block is laid out as planned exactly when there is nothing to send or the
header lengths agree for the bytes that the smallest large enough block leaves
over. -/
theorem scheduleNewTransmission_sized_iff (table : TbsTable) (rlc : Rlc) (g : DlGrant)
    (buf fill : ℕ → ℕ) (hpow : 0 < g.dlPowOff) :
    (∀ pdu, scheduleNewTransmission table rlc g buf fill = some pdu → pdu.Sized) ↔
      let m := collectSdus rlc (g.offeredTbs table) g.taLen
      let target := blockTarget m.dcchSdus m.dtchSdus g.taLen
      let nbRb := neededRbs table g.mcs1 g.firstRbs g.minRbUnit.toNat g.nbAvailableRb target
      (m.sdus = [] ∧ g.taLen + 2 < g.offeredTbs table) ∨
        ∃ tbs, BestBlock table nbRb target tbs ∧
          HeadersAgree m.dcchSdus m.dtchSdus g.taLen (tbs - target) := by
  dsimp only
  have hm := collectSdus_spec rlc (g.offeredTbs table) g.taLen
  unfold scheduleNewTransmission
  dsimp only
  set m := collectSdus rlc (g.offeredTbs table) g.taLen
  split
  · next hsend =>
    have hneed := hm.need_eq hsend
    have hsome : ¬ (m.sdus = [] ∧ g.taLen + 2 < g.offeredTbs table) := by
      intro h
      obtain ⟨hnone, hroom⟩ := h
      have := hm.nothing hnone hroom
      omega
    have htbs : (transmit table g m buf fill).tbs = table.tbs (g.mcs table
        (blockTarget m.dcchSdus m.dtchSdus g.taLen) (g.nbRb table
          (blockTarget m.dcchSdus m.dtchSdus g.taLen))) (g.nbRb table
          (blockTarget m.dcchSdus m.dtchSdus g.taLen)) := by
      rw [← hneed]
      rfl
    rw [or_iff_right hsome, ← g.nbRb_eq table, g.mcs_bestBlock table hpow _ _
      (fun tbs ↦ HeadersAgree m.dcchSdus m.dtchSdus g.taLen
        (tbs - blockTarget m.dcchSdus m.dtchSdus g.taLen)), ← htbs]
    simp only [Option.some.injEq, forall_eq']
    rw [transmit_sized_iff table g buf fill hm hsend, hneed]
    constructor
    · intro h
      obtain ⟨r, hr, hagree⟩ := h
      rw [hr]
      exact ⟨Nat.le_add_right _ _, by rwa [Nat.add_sub_cancel_left]⟩
    · intro h
      obtain ⟨hle, hagree⟩ := h
      exact ⟨_, (Nat.add_sub_cancel' hle).symm, hagree⟩
  · next hsend =>
    refine iff_of_true (fun pdu h ↦ absurd h (by simp)) (.inl ?_)
    exact hm.of_nothing (by omega)

/-- A table with `nbRb * (mcs + 1)` bytes for the blocks that occur. -/
def linearTbs : TbsTable where
  tbs mcs nbRb := min (nbRb * (mcs + 1)) 65535
  tbs_lt _ _ := by omega
  tbs_mono nbRb mcs mcs' h _ := by
    have := Nat.mul_le_mul_left nbRb (Nat.add_le_add_right h 1)
    omega

def Rlc.single (lcid n : ℕ) : Rlc where
  sdu l offered := if l = lcid ∧ n ≤ offered then some (List.replicate n 0) else none
  length_le h := by
    split at h
    · next hle =>
      rw [← Option.some.inj h, List.length_replicate]
      exact hle.2
    · simp at h

/-- A grant of 8 resource blocks at 5 MHz. -/
def DlGrant.eightRbs : DlGrant where
  bandwidth := .rb25
  dlCqi := 4
  nbAvailableRb := 8
  nbAvailableRb_le := by decide
  taUpdate := 0
  dlPowOff := 2

theorem scheduleNewTransmission_sized_dcch :
    ∃ pdu, scheduleNewTransmission linearTbs (.single dcch 20) .eightRbs (fun _ ↦ 0) (fun _ ↦ 0) =
      some pdu ∧ pdu.Sized := by
  have hnbRb : neededRbs linearTbs 4 2 2 8 21 = 6 := by decide
  have hbest : BestBlock linearTbs (neededRbs linearTbs 4 2 2 8 21) 21 24 := by
    rw [hnbRb]
    refine ⟨⟨by decide, 3, by decide, rfl⟩, ?_⟩
    intro t h
    obtain ⟨ht, mcs, -, rfl⟩ := h
    simp only [linearTbs] at ht ⊢
    omega
  have hsized := scheduleNewTransmission_sized_iff linearTbs (.single dcch 20) .eightRbs
    (fun _ ↦ 0) (fun _ ↦ 0) (by decide)
  exact ⟨_, rfl, hsized.mpr (.inr ⟨24, hbest, .inl (by decide)⟩) _ rfl⟩

/-- An SDU of 10 bytes on logical channel 4 gets a block that is one byte short. -/
theorem not_scheduleNewTransmission_sized_lcid4 :
    ¬ ∀ pdu, scheduleNewTransmission linearTbs (.single 4 10) .eightRbs (fun _ ↦ 0) (fun _ ↦ 0) =
      some pdu → pdu.Sized := by
  intro h
  have hpdu := (h _ rfl).filled
  revert hpdu
  decide

end EdgeSlice.Mac
