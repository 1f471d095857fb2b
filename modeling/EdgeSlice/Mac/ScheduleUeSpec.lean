import EdgeSlice.MonotoneSearch
import EdgeSlice.Mac.DlschDemand
import EdgeSlice.Mac.DlschHeader
import Mathlib.Data.Fin.VecNotation

namespace EdgeSlice.Mac

open ByteMemory MonotoneSearch

def cqiToMcs : Fin 16 → ℕ := ![0, 0, 1, 2, 4, 6, 8, 11, 13, 16, 18, 20, 23, 25, 27, 28]

theorem cqiToMcs_le (cqi : Fin 16) : cqiToMcs cqi ≤ 28 := by
  revert cqi
  decide

/-- `get_TBS_DL`: block sizes by MCS and number of resource blocks. -/
structure TbsTable where
  tbs : ℕ → ℕ → ℕ
  tbs_lt : ∀ mcs nbRb, tbs mcs nbRb < 65536
  tbs_mono : ∀ nbRb mcs mcs', mcs ≤ mcs' → mcs' ≤ 28 → tbs mcs nbRb ≤ tbs mcs' nbRb

/-- The answer of RLC to `mac_rlc_status_ind` and `mac_rlc_data_req` for a
logical channel that is offered some bytes; `none` when it has no data. -/
structure Rlc where
  sdu : ℕ → ℕ → Option (List ℕ)
  length_le : ∀ {lcid offered data}, sdu lcid offered = some data → data.length ≤ offered

/-- The SDUs that `schedule_ue_spec` has collected and its header lengths. -/
structure DlschMux where
  dcchSdus : List (ℕ × List ℕ)
  dtchSdus : List (ℕ × List ℕ)
  sduLengthTotal : ℕ
  headerLenDcch : ℕ
  headerLenDtch : ℕ
  headerLenDtchLast : ℕ

namespace DlschMux

/-- Nothing collected; two bytes are assumed for the subheader of DCCH. -/
def start : DlschMux := ⟨[], [], 0, 2, 0, 0⟩

def sdus (m : DlschMux) : List (ℕ × List ℕ) := m.dcchSdus ++ m.dtchSdus

/-- A negative rest of the block is zero here: nothing is asked for either way. -/
def left (m : DlschMux) (tbs taLen : ℕ) : ℕ :=
  tbs - taLen - m.headerLenDcch - m.sduLengthTotal - m.headerLenDtch

end DlschMux

def collectDcch (rlc : Rlc) (tbs taLen : ℕ) : DlschMux :=
  if 0 < DlschMux.start.left tbs taLen then
    match rlc.sdu dcch (DlschMux.start.left tbs taLen) with
    | some data => { DlschMux.start with
        dcchSdus := [(dcch, data)]
        sduLengthTotal := data.length }
    | none => { DlschMux.start with headerLenDcch := 0 }
  else .start

/-- The request for DCCH1 data, which reserves no room for its own subheader. -/
def collectDcch1 (rlc : Rlc) (tbs taLen : ℕ) (m : DlschMux) : DlschMux :=
  if 0 < m.left tbs taLen then
    match rlc.sdu dcch1 (m.left tbs taLen) with
    | some data => { m with
        dcchSdus := m.dcchSdus ++ [(dcch1, data)]
        sduLengthTotal := m.sduLengthTotal + data.length
        headerLenDcch := m.headerLenDcch + 2 }
    | none => m
  else m

def collectDtch (rlc : Rlc) (tbs taLen : ℕ) : List ℕ → DlschMux → DlschMux
  | [], m => m
  | lcid :: lcids, m =>
    let n := { m with headerLenDtch := m.headerLenDtch + 3, headerLenDtchLast := 3 }
    if 0 < n.left tbs taLen then
      match rlc.sdu lcid (n.left tbs taLen) with
      | some data => collectDtch rlc tbs taLen lcids { n with
          dtchSdus := n.dtchSdus ++ [(lcid, data)]
          sduLengthTotal := n.sduLengthTotal + data.length
          headerLenDtch := if data.length < 128 then n.headerLenDtch - 1 else n.headerLenDtch
          headerLenDtchLast :=
            if data.length < 128 then n.headerLenDtchLast - 1 else n.headerLenDtchLast }
      | none => collectDtch rlc tbs taLen lcids { n with headerLenDtch := n.headerLenDtch - 3 }
    else { n with headerLenDtch := n.headerLenDtch - 3 }

/-- The LCIDs from `NB_RB_MAX - 1` down to `DTCH`. -/
def dtchLcids : List ℕ := (List.range' dtch (nbRbMax - dtch)).reverse

def collectSdus (rlc : Rlc) (tbs taLen : ℕ) : DlschMux :=
  let m := collectDtch rlc tbs taLen dtchLcids
    (collectDcch1 rlc tbs taLen (collectDcch rlc tbs taLen))
  { m with headerLenDtchLast := if m.headerLenDtch = 0 then 0 else m.headerLenDtchLast }

def DlschMux.shorten (m : DlschMux) : DlschMux :=
  if m.headerLenDtch = 0 then { m with headerLenDcch := if 0 < m.headerLenDcch then 1 else 0 }
  else { m with
    headerLenDtchLast := m.headerLenDtchLast - 1
    headerLenDtch := m.headerLenDtch - (m.headerLenDtchLast - 1) }

def DlschMux.need (m : DlschMux) (taLen : ℕ) : ℕ :=
  m.sduLengthTotal + m.headerLenDcch + m.headerLenDtch + taLen

/-- A downlink transport block as `schedule_ue_spec` leaves it. -/
structure DlschPdu where
  nbRb : ℕ
  mcs : ℕ
  tbs : ℕ
  sduLengthTotal : ℕ
  headerLenDcch : ℕ
  headerLenDtch : ℕ
  taLen : ℕ
  padding : ℕ
  postPadding : ℕ
  offset : ℕ
  payload : ℕ → ℕ

/-- The final header lengths and the paddings. -/
structure Padded where
  lengths : DlschMux
  padding : ℕ
  postPadding : ℕ

def padBlock (m : DlschMux) (taLen tbs : ℕ) : Padded :=
  let s := m.shorten
  if (tbs : ℤ) - s.headerLenDcch - s.headerLenDtch - s.sduLengthTotal - taLen ≤ 2 then
    { lengths := s
      padding := uint16 ((tbs : ℤ) - s.headerLenDcch - s.headerLenDtch - s.sduLengthTotal - taLen)
      postPadding := 0 }
  else
    let s := if s.headerLenDtch = 0 then { s with headerLenDcch := m.headerLenDcch }
      else { s with headerLenDtch := m.headerLenDtch }
    { lengths := s
      padding := 0
      postPadding :=
        uint16 ((tbs : ℤ) - s.sduLengthTotal - s.headerLenDcch - s.headerLenDtch - taLen) }

/-- The scheduling state of a UE on a carrier, for a new transmission. The
pre-processor grants at most every RBG of the carrier. -/
structure DlGrant where
  bandwidth : Bandwidth
  dlCqi : Fin 16
  nbAvailableRb : ℕ
  nbAvailableRb_le : nbAvailableRb ≤ 4 * nRbgMax
  taUpdate : ℤ
  dlPowOff : ℕ

namespace DlGrant

variable (g : DlGrant) (table : TbsTable)

def mcs1 : ℕ := cqiToMcs g.dlCqi

def taLen : ℕ := if g.taUpdate ≠ 0 then 2 else 0

def minRbUnit : ℤ := getMinRbUnit g.bandwidth.nRbDl

def offeredTbs : ℕ := table.tbs g.mcs1 g.nbAvailableRb

/-- The number of resource blocks with which the search starts. -/
def firstRbs : ℕ := if g.mcs1 = 0 then 4 else g.minRbUnit.toNat

def nbRb (need : ℕ) : ℕ :=
  growRbs table.tbs g.mcs1 g.nbAvailableRb need g.minRbUnit (g.nbAvailableRb + 1) g.firstRbs

/-- The MCS above which a UE is not raised. -/
def maxMcs : ℕ := if 0 < g.dlPowOff then 28 else 16

/-- The choice of `mcs`: down to a block that is not too large, then up. -/
def mcs (need nbRb : ℕ) : ℕ :=
  ascend (fun mcs ↦ table.tbs mcs nbRb) need g.maxMcs g.maxMcs
    (descend (fun mcs ↦ table.tbs mcs nbRb) need g.mcs1)

end DlGrant

def transmit (table : TbsTable) (g : DlGrant) (m : DlschMux) (buf fill : ℕ → ℕ) : DlschPdu :=
  let need := m.shorten.need g.taLen
  let nbRb := g.nbRb table need
  let mcs := g.mcs table need nbRb
  let tbs := table.tbs mcs nbRb
  let p := padBlock m g.taLen tbs
  let h := generateDlschHeader buf (sduLengths m.sdus) 255 g.taUpdate none (uint8 p.padding)
    p.postPadding
  let payload := store h.1 h.2 (m.sdus.flatMap Prod.snd)
  let payload := store payload (h.2 + m.sduLengthTotal)
    ((List.range (tbs - m.sduLengthTotal - h.2)).map fill)
  { nbRb
    mcs
    tbs
    sduLengthTotal := m.sduLengthTotal
    headerLenDcch := p.lengths.headerLenDcch
    headerLenDtch := p.lengths.headerLenDtch
    taLen := g.taLen
    padding := p.padding
    postPadding := p.postPadding
    offset := h.2
    payload }

/-- The branch of `schedule_ue_spec` for a new transmission. -/
def scheduleNewTransmission (table : TbsTable) (rlc : Rlc) (g : DlGrant) (buf fill : ℕ → ℕ) :
    Option DlschPdu :=
  let m := collectSdus rlc (g.offeredTbs table) g.taLen
  if 0 < m.sduLengthTotal + m.headerLenDcch + m.headerLenDtch then
    some (transmit table g m buf fill)
  else none

/-- What `header_len_dtch_last` says when `final` is the last LCID asked. -/
def dtchLast (final : ℕ) (sdus : List (ℕ × List ℕ)) : ℕ :=
  match sdus.getLast? with
  | some sdu => if sdu.1 = final ∧ sdu.2.length < 128 then 2 else 3
  | none => 3

theorem collectDtch_spec (rlc : Rlc) (tbs taLen : ℕ) {lcids : List ℕ} (hnodup : lcids.Nodup)
    (m : DlschMux) :
    ∃ sdus : List (ℕ × List ℕ),
      (collectDtch rlc tbs taLen lcids m).dcchSdus = m.dcchSdus ∧
      (collectDtch rlc tbs taLen lcids m).headerLenDcch = m.headerLenDcch ∧
      (collectDtch rlc tbs taLen lcids m).dtchSdus = m.dtchSdus ++ sdus ∧
      (collectDtch rlc tbs taLen lcids m).sduLengthTotal = m.sduLengthTotal + sduBytes sdus ∧
      (collectDtch rlc tbs taLen lcids m).headerLenDtch = m.headerLenDtch + headerLen sdus ∧
      (sdus.map Prod.fst).Sublist lcids ∧
      ∀ hne : lcids ≠ [], (collectDtch rlc tbs taLen lcids m).headerLenDtchLast =
        dtchLast (lcids.getLast hne) sdus := by
  induction lcids generalizing m with
  | nil => exact ⟨[], by simp [collectDtch]⟩
  | cons lcid lcids ih =>
    obtain ⟨hlcid, hnodup⟩ := List.nodup_cons.mp hnodup
    rw [collectDtch]
    split
    · split
      · next data hdata =>
        obtain ⟨sdus, hdcch, hlen, hsdus, htotal, hheader, hsub, hlast⟩ := ih hnodup _
        refine ⟨(lcid, data) :: sdus, hdcch, hlen, ?_, ?_, ?_, ?_, ?_⟩
        · rw [hsdus, List.append_assoc]
          rfl
        · rw [htotal, sduBytes_cons, Nat.add_assoc]
        · rw [hheader, headerLen_cons, sduHeaderLen]
          dsimp only
          split <;> omega
        · exact hsub.cons_cons lcid
        · intro hne
          rcases lcids.eq_nil_or_concat' with rfl | ⟨front, final, rfl⟩
          · rw [List.sublist_nil, List.map_eq_nil_iff] at hsub
            subst hsub
            by_cases hshort : data.length < 128 <;> simp [collectDtch, dtchLast, hshort]
          · rw [hlast (by simp)]
            have hfinal : lcid ≠ final := fun h ↦ hlcid (by simp [h])
            rcases sdus.eq_nil_or_concat' with rfl | ⟨sdus, sdu, rfl⟩
            · simp [dtchLast, hfinal]
            · simp [dtchLast, List.getLast?_cons]
      · next hnone =>
        obtain ⟨sdus, hdcch, hlen, hsdus, htotal, hheader, hsub, hlast⟩ := ih hnodup _
        refine ⟨sdus, hdcch, hlen, hsdus, htotal, ?_, hsub.cons lcid, ?_⟩
        · rw [hheader]
          dsimp only
          omega
        · intro hne
          rcases lcids.eq_nil_or_concat' with rfl | ⟨front, final, rfl⟩
          · rw [List.sublist_nil, List.map_eq_nil_iff] at hsub
            subst hsub
            simp [collectDtch, dtchLast]
          · rw [hlast (by simp)]
            simp
    · exact ⟨[], by simp [dtchLast]⟩

/-- The variables of `schedule_ue_spec` after all requests to RLC. -/
structure Collected (m : DlschMux) (tbs taLen : ℕ) : Prop where
  total : m.sduLengthTotal = sduBytes m.sdus
  dcch_length : m.dcchSdus.length ≤ 2
  dtch_length : m.dtchSdus.length ≤ 11
  headerLenDcch : (taLen + 2 < tbs ∧ m.headerLenDcch = 2 * m.dcchSdus.length) ∨
    (tbs ≤ taLen + 2 ∧ m.headerLenDcch = 2 ∧ m.sdus = [])
  headerLenDtch : m.headerLenDtch = headerLen m.dtchSdus
  headerLenDtchLast : m.dtchSdus ≠ [] → m.headerLenDtchLast = dtchLast dtch m.dtchSdus

theorem collectDcch_spec (rlc : Rlc) (tbs taLen : ℕ) :
    (collectDcch rlc tbs taLen).sduLengthTotal = sduBytes (collectDcch rlc tbs taLen).dcchSdus ∧
    (collectDcch rlc tbs taLen).dcchSdus.length ≤ 1 ∧
    (collectDcch rlc tbs taLen).dtchSdus = [] ∧
    (collectDcch rlc tbs taLen).headerLenDtch = 0 ∧
    ((taLen + 2 < tbs ∧ (collectDcch rlc tbs taLen).headerLenDcch =
        2 * (collectDcch rlc tbs taLen).dcchSdus.length) ∨
      (tbs ≤ taLen + 2 ∧ (collectDcch rlc tbs taLen).headerLenDcch = 2 ∧
        (collectDcch rlc tbs taLen).dcchSdus = [])) := by
  unfold collectDcch
  split
  · next hleft =>
    simp only [DlschMux.left, DlschMux.start] at hleft
    split
    · exact ⟨by simp, by simp, rfl, rfl, .inl ⟨by omega, rfl⟩⟩
    · exact ⟨rfl, by simp [DlschMux.start], rfl, rfl, .inl ⟨by omega, rfl⟩⟩
  · next hleft =>
    simp only [DlschMux.left, DlschMux.start] at hleft
    exact ⟨rfl, by simp [DlschMux.start], rfl, rfl, .inr ⟨by omega, rfl, rfl⟩⟩

theorem collected_dcch1 (rlc : Rlc) (tbs taLen : ℕ) :
    Collected (collectDcch1 rlc tbs taLen (collectDcch rlc tbs taLen)) tbs taLen ∧
    (collectDcch1 rlc tbs taLen (collectDcch rlc tbs taLen)).dtchSdus = [] := by
  obtain ⟨htotal, hcount, hdtch, hheader, hcase⟩ := collectDcch_spec rlc tbs taLen
  set m := collectDcch rlc tbs taLen
  unfold collectDcch1
  split
  · next hleft =>
    simp only [DlschMux.left] at hleft
    have hroom : taLen + 2 < tbs ∧ m.headerLenDcch = 2 * m.dcchSdus.length :=
      hcase.resolve_right (by omega)
    split
    · next data hdata =>
      refine ⟨⟨?_, ?_, by simp [hdtch], .inl ⟨hroom.1, ?_⟩, by simp [hheader, hdtch],
        fun h ↦ absurd hdtch h⟩, hdtch⟩
      · simp [DlschMux.sdus, hdtch, htotal]
      · simp only [List.length_append, List.length_singleton]
        omega
      · simp only [List.length_append, List.length_singleton, hroom.2]
        omega
    · exact ⟨⟨by simp [DlschMux.sdus, hdtch, htotal], by omega, by simp [hdtch], .inl hroom,
        by simp [hheader, hdtch], fun h ↦ absurd hdtch h⟩, hdtch⟩
  · refine ⟨⟨by simp [DlschMux.sdus, hdtch, htotal], by omega, by simp [hdtch], ?_,
      by simp [hheader, hdtch], fun h ↦ absurd hdtch h⟩, hdtch⟩
    rcases hcase with h | ⟨hle, hlen, hnone⟩
    · exact .inl h
    · exact .inr ⟨hle, hlen, by simp [DlschMux.sdus, hnone, hdtch]⟩

theorem dtchLcids_nodup : dtchLcids.Nodup := by decide

theorem collectDtch_full (rlc : Rlc) {tbs taLen : ℕ} (lcid : ℕ) (lcids : List ℕ) {m : DlschMux}
    (h : tbs ≤ taLen + m.headerLenDcch) :
    (collectDtch rlc tbs taLen (lcid :: lcids) m).dtchSdus = m.dtchSdus := by
  rw [collectDtch, if_neg]
  simp only [DlschMux.left]
  omega

theorem collectSdus_spec (rlc : Rlc) (tbs taLen : ℕ) :
    Collected (collectSdus rlc tbs taLen) tbs taLen := by
  obtain ⟨hm, hempty⟩ := collected_dcch1 rlc tbs taLen
  set m := collectDcch1 rlc tbs taLen (collectDcch rlc tbs taLen) with hmdef
  obtain ⟨sdus, hdcch, hlen, hsdus, htotal, hheader, hsub, hlast⟩ :=
    collectDtch_spec rlc tbs taLen dtchLcids_nodup m
  rw [hempty, List.nil_append] at hsdus
  have hzero : m.headerLenDtch = 0 := by rw [hm.headerLenDtch, hempty]; rfl
  rw [hzero, Nat.zero_add] at hheader
  have hmsdus : m.sdus = m.dcchSdus := by rw [DlschMux.sdus, hempty, List.append_nil]
  have hmtotal : m.sduLengthTotal = sduBytes m.dcchSdus := by rw [hm.total, hmsdus]
  have hfinal : (collectDtch rlc tbs taLen dtchLcids m).headerLenDtchLast = dtchLast dtch sdus :=
    hlast (by decide)
  have hcollect : collectSdus rlc tbs taLen = { collectDtch rlc tbs taLen dtchLcids m with
      headerLenDtchLast := if headerLen sdus = 0 then 0 else dtchLast dtch sdus } := by
    rw [← hheader, ← hfinal]
    rfl
  rw [hcollect]
  refine ⟨?_, ?_, ?_, ?_, ?_, ?_⟩
  · simp only [DlschMux.sdus, hdcch, hsdus, htotal, hmtotal, sduBytes_append]
  · exact hdcch ▸ hm.dcch_length
  · have hcount := hsub.length_le
    rw [List.length_map] at hcount
    rw [hsdus]
    exact hcount
  · rcases hm.headerLenDcch with ⟨hroom, hlong⟩ | ⟨hfull, hshort, hnone⟩
    · refine .inl ⟨hroom, ?_⟩
      rw [hlen, hdcch, hlong]
    · refine .inr ⟨hfull, hlen.trans hshort, ?_⟩
      have hroom : tbs ≤ taLen + m.headerLenDcch := hshort ▸ hfull
      have hstop := collectDtch_full rlc 13 dtchLcids.tail hroom
      have hnil : (collectDtch rlc tbs taLen dtchLcids m).dtchSdus = [] := hstop.trans hempty
      rw [hmsdus] at hnone
      simp only [DlschMux.sdus, hdcch, hnone, hnil, List.append_nil]
  · exact hheader.trans (congrArg headerLen hsdus.symm)
  · intro hne
    dsimp only at hne ⊢
    rw [hsdus] at hne ⊢
    rw [if_neg]
    obtain ⟨sdu, rest, rfl⟩ := List.exists_cons_of_ne_nil hne
    rw [headerLen_cons, sduHeaderLen]
    split <;> omega

theorem DlschMux.left_le (m : DlschMux) (tbs taLen : ℕ) : m.left tbs taLen ≤ tbs - m.sduLengthTotal := by
  unfold left
  omega

theorem collectDtch_total_le (rlc : Rlc) (tbs taLen : ℕ) (lcids : List ℕ) {m : DlschMux}
    (h : m.sduLengthTotal ≤ tbs) :
    (collectDtch rlc tbs taLen lcids m).sduLengthTotal ≤ tbs := by
  induction lcids generalizing m with
  | nil => exact h
  | cons lcid lcids ih =>
    rw [collectDtch]
    split
    · split
      · next data hdata =>
        have hle := (rlc.length_le hdata).trans (DlschMux.left_le _ tbs taLen)
        apply ih
        dsimp only at hle ⊢
        omega
      · exact ih h
    · exact h

theorem collectSdus_total_le (rlc : Rlc) (tbs taLen : ℕ) :
    (collectSdus rlc tbs taLen).sduLengthTotal ≤ tbs := by
  have hdcch : (collectDcch rlc tbs taLen).sduLengthTotal ≤ tbs := by
    unfold collectDcch
    split
    · split
      · next data hdata => exact (rlc.length_le hdata).trans ((DlschMux.left_le _ tbs taLen).trans
          (Nat.sub_le _ _))
      · exact Nat.zero_le _
    · exact Nat.zero_le _
  apply collectDtch_total_le rlc tbs taLen dtchLcids
  unfold collectDcch1
  split
  · split
    · next data hdata =>
      have hle := (rlc.length_le hdata).trans (DlschMux.left_le _ tbs taLen)
      dsimp only
      omega
    · exact hdcch
  · exact hdcch

end EdgeSlice.Mac
