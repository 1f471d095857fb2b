import EdgeSlice.Mac.DlschHeader
import EdgeSlice.Mac.UlschHeader

namespace EdgeSlice.Mac

open Function ByteMemory

def maxNumLcid : ℕ := 11

def maxNumLcgid : ℕ := 4

def minMacHdrRlcSize : ℕ := 3

def bsrTriggerPeriodic : ℕ := 2

def bsrTriggerPadding : ℕ := 4

/-- The length of `sdu_lengths` and `sdu_lcids` in `ue_get_sdu`. -/
def maxUlSdus : ℕ := 8

def maxUlschPayloadBytes : ℕ := 16 * 768

/-- RLC of a UE: the occupancy of a logical channel, and the PDU it hands over
when it is offered some bytes. -/
structure UlRlc (σ : Type*) where
  occupancy : σ → ℕ → ℕ
  dataReq : σ → ℕ → ℕ → List ℕ × σ

/-- The part of `UE_SCHEDULING_INFO` that `ue_get_sdu` uses. -/
structure SchedulingInfo where
  bsrBytes : ℕ → ℕ
  lcidBufferRemain : ℕ → ℕ
  lcidNotEmpty : ℕ → Bool
  lcgid : ℕ → ℕ

/-- The part of `UE_mac_inst` that `ue_get_sdu` uses, and the state of RLC.
`priority` is `none` for a logical channel that is not configured. -/
structure UeUl (σ : Type*) where
  rlc : σ
  info : SchedulingInfo
  bsrReportingActive : ℕ
  periodicBsrExpired : Bool
  phrReportingActive : Bool
  phrMapping : Fin 64
  bsrIndex : ℕ → Fin 64
  priority : ℕ → Option ℕ
  usimTest : Bool

/-- An uplink grant fits the buffer of the PHY. -/
structure UlGrant where
  buflen : ℕ
  buflen_le : buflen ≤ maxUlschPayloadBytes

/-- How `ue_get_sdu` can fail: an assertion stops the process, or a ninth PDU is
written behind the arrays. -/
inductive UlFailure
  | assertFatal
  | overrun
  deriving DecidableEq

/-- The variables of `ue_get_sdu` while it multiplexes. -/
structure UlMux (σ : Type*) where
  rlc : σ
  info : SchedulingInfo
  sdus : List (ℕ × List ℕ)
  sduLengthTotal : ℕ
  totalRlcPduHeaderLen : ℕ
  rlcPduHeaderLenLast : ℕ
  allProcessed : Bool
  numLcg : ℕ
  bsrHeaderLen : ℕ
  bsrCeLen : ℕ

variable {σ : Type*}

namespace UlMux

def bsrLen (m : UlMux σ) : ℕ := m.bsrHeaderLen + m.bsrCeLen

def used (m : UlMux σ) (phrLen : ℕ) : ℕ :=
  m.bsrLen + phrLen + m.totalRlcPduHeaderLen + m.sduLengthTotal

def countedLen (length : ℕ) : ℕ := if 128 < length then 3 else 2

/-- Taking over a PDU. Its subheader counts one byte when the grant is full. -/
def add (m : UlMux σ) (buflen phrLen lcid : ℕ) (data : List ℕ) (rlc : σ) : UlMux σ :=
  let used := m.used phrLen + data.length
  let full : Bool := buflen = used + 1 ∨ buflen ≤ used + countedLen data.length
  let last := if full then 1 else countedLen data.length
  { m with
    rlc
    sdus := m.sdus ++ [(lcid, data)]
    sduLengthTotal := m.sduLengthTotal + data.length
    totalRlcPduHeaderLen := m.totalRlcPduHeaderLen + last
    rlcPduHeaderLenLast := last
    allProcessed := full }

/-- The bookkeeping after a logical channel whose occupancy went from `old` to
`new`. A long report becomes a short one when one group is left. -/
def settle (m : UlMux σ) (lcid old new : ℕ) : UlMux σ :=
  let lcg := m.info.lcgid lcid
  let info : SchedulingInfo := { m.info with
    bsrBytes := update m.info.bsrBytes lcg (m.info.bsrBytes lcg - (old - new))
    lcidBufferRemain := update m.info.lcidBufferRemain lcid new
    lcidNotEmpty := update m.info.lcidNotEmpty lcid false }
  if 1 < m.numLcg ∧ info.bsrBytes lcg = 0 then
    { m with
      info
      numLcg := m.numLcg - 1
      bsrCeLen := if m.bsrLen ≠ 0 ∧ m.numLcg - 1 = 1 then 1 else m.bsrCeLen }
  else { m with info }

end UlMux

section Multiplex

variable (R : UlRlc σ) (usimTest : Bool) (buflen phrLen : ℕ)

/-- The inner loop: PDUs of one logical channel. `count` is
`lcid_rlc_pdu_count`; the result has the occupancy at the end. -/
def multiplexSdus (lcid : ℕ) : ℕ → ℕ → UlMux σ → ℕ → Except UlFailure (UlMux σ × ℕ)
  | 0, _, _, _ => .error .overrun
  | fuel + 1, count, m, occupancy =>
    if 0 < occupancy ∧ m.used phrLen + minMacHdrRlcSize ≤ buflen then
      if usimTest = false ∧ lcid = dcch1 ∧ count = 0 ∧ m.sdus ≠ [] then .ok (m, occupancy)
      else if maxUlSdus ≤ m.sdus.length then .error .overrun
      else
        let remain := buflen - (m.used phrLen + 1)
        let (data, rlc) := R.dataReq m.rlc lcid remain
        if remain < data.length then .error .assertFatal
        else if data = [] then .ok ({ m with rlc }, R.occupancy rlc lcid)
        else
          let m := m.add buflen phrLen lcid data rlc
          if m.allProcessed then .ok (m, R.occupancy rlc lcid)
          else multiplexSdus lcid fuel (count + 1) m (R.occupancy rlc lcid)
    else .ok (m, occupancy)

/-- One logical channel, with the assertions on its occupancy. -/
def multiplexLcid (lcid : ℕ) (m : UlMux σ) : Except UlFailure (UlMux σ) :=
  if m.info.lcidNotEmpty lcid then
    let old := R.occupancy m.rlc lcid
    if old ≠ m.info.lcidBufferRemain lcid ∨ m.info.bsrBytes (m.info.lcgid lcid) < old then
      .error .assertFatal
    else
      match multiplexSdus R usimTest buflen phrLen lcid (maxUlSdus + 1) 0 m old with
      | .error e => .error e
      | .ok (m, new) => if old < new then .error .assertFatal else .ok (m.settle lcid old new)
  else .ok m

def multiplex : List ℕ → UlMux σ → Except UlFailure (UlMux σ)
  | [], m => .ok m
  | lcid :: lcids, m =>
    if m.allProcessed then .ok m
    else
      match multiplexLcid R usimTest buflen phrLen lcid m with
      | .error e => .error e
      | .ok m => multiplex lcids m

end Multiplex

def SchedulingInfo.lcgs (info : SchedulingInfo) : List ℕ :=
  (List.range maxNumLcgid).filter (fun lcg ↦ 0 < info.bsrBytes lcg)

/-- The triggers, with an expired periodic timer. -/
def UeUl.bsrTriggers (ue : UeUl σ) : ℕ :=
  if ue.periodicBsrExpired then ue.bsrReportingActive ||| bsrTriggerPeriodic
  else ue.bsrReportingActive

/-- The variables before multiplexing. A report needs four bytes. -/
def UeUl.start (ue : UeUl σ) (buflen : ℕ) : UlMux σ where
  rlc := ue.rlc
  info := ue.info
  sdus := []
  sduLengthTotal := 0
  totalRlcPduHeaderLen := 0
  rlcPduHeaderLenLast := 0
  allProcessed := false
  numLcg := ue.info.lcgs.length
  bsrHeaderLen := if ue.bsrTriggers ≠ 0 ∧ 4 ≤ buflen then 1 else 0
  bsrCeLen :=
    if ue.bsrTriggers ≠ 0 ∧ 4 ≤ buflen then if ue.info.lcgs.length ≤ 1 then 1 else 3 else 0

def UeUl.phrLen (ue : UeUl σ) (buflen : ℕ) : ℕ :=
  if ue.phrReportingActive ∧ 2 + (ue.start buflen).bsrLen ≤ buflen then 2 else 0

namespace UlMux

/-- `padding_len`: what is left when the last subheader has one byte. -/
def paddingLen (m : UlMux σ) (buflen phrLen : ℕ) : ℕ :=
  if m.sduLengthTotal ≠ 0 then
    uint16 ((buflen : ℤ) - (m.bsrLen + phrLen + m.totalRlcPduHeaderLen - m.rlcPduHeaderLenLast +
      m.sduLengthTotal + 1))
  else uint16 ((buflen : ℤ) - (m.bsrLen + phrLen))

/-- A padding report takes the place of padding. -/
def padBsr (m : UlMux σ) (buflen phrLen : ℕ) : UlMux σ :=
  if m.paddingLen buflen phrLen ≠ 0 ∧ m.bsrLen = 0 then
    if 4 ≤ m.paddingLen buflen phrLen then { m with bsrHeaderLen := 1, bsrCeLen := 3 }
    else if 2 ≤ m.paddingLen buflen phrLen then { m with bsrHeaderLen := 1, bsrCeLen := 1 }
    else m
  else m

/-- `short_padding` and `post_padding`. -/
def paddings (m : UlMux σ) (buflen phrLen : ℕ) : ℕ × ℕ :=
  if m.paddingLen buflen phrLen ≤ 2 then (m.paddingLen buflen phrLen, 0)
  else if m.sduLengthTotal ≠ 0 then
    let post := uint16 ((buflen : ℤ) - (m.used phrLen + 1))
    if post = 0 then (uint16 ((buflen : ℤ) - (m.used phrLen - m.rlcPduHeaderLenLast + 1)), 0)
    else (0, post)
  else (0, uint16 ((buflen : ℤ) - (m.used phrLen + 1)))

end UlMux

/-- The group of the configured channel with data that has the highest
priority, by a scan over the logical channels. -/
def truncatedLcg (info : SchedulingInfo) (priority : ℕ → Option ℕ) (lcg : ℕ) : ℕ :=
  ((List.range' dcch (maxNumLcid - dcch)).foldl (fun best lcid ↦
    match priority lcid with
    | some p =>
      if info.lcgid lcid < maxNumLcgid ∧ 0 < info.bsrBytes (info.lcgid lcid) ∧ p ≤ best.1 then
        (p, info.lcgid lcid)
      else best
    | none => best) (16, lcg)).2

/-- The buffer status reports handed to the header generator: truncated, short
and long. -/
structure UlBsr where
  truncatedBsr : Option BsrShort
  shortBsr : Option BsrShort
  longBsr : Option BsrLong

/-- The choice of the report. It is truncated when it is a padding report and
more than one group has data. -/
def chooseBsr (ue : UeUl σ) (info : SchedulingInfo) (ceLen : ℕ) (padding : Bool) : UlBsr :=
  let index lcg := ue.bsrIndex (info.bsrBytes lcg)
  let lcg := info.lcgs.getLastD 0
  if ceLen = 0 then ⟨none, none, none⟩
  else if ceLen = 3 then ⟨none, none, some ⟨index 0, index 1, index 2, index 3⟩⟩
  else if padding ∧ 1 < info.lcgs.length then
    let lcg := truncatedLcg info ue.priority lcg
    ⟨some ⟨index lcg, Fin.ofNat 4 lcg⟩, none, none⟩
  else ⟨none, some ⟨index lcg, Fin.ofNat 4 lcg⟩, none⟩

/-- A transport block as `ue_get_sdu` leaves it. -/
structure UlPdu where
  sdus : List (ℕ × List ℕ)
  powerHeadroom : Option PowerHeadroomCmd
  bsr : UlBsr
  shortPadding : ℕ
  postPadding : ℕ
  payloadOffset : ℕ
  buffer : ℕ → ℕ
  canceledAccess : Bool

/-- The second half of `ue_get_sdu`: reports, padding and header. -/
def UeUl.assemble (ue : UeUl σ) (m : UlMux σ) (buflen : ℕ) (buf fill : ℕ → ℕ) :
    UlPdu × UeUl σ :=
  let phrLen := ue.phrLen buflen
  let powerHeadroom : Option PowerHeadroomCmd :=
    if phrLen = 0 then none else some ⟨ue.phrMapping, 0⟩
  let padded := m.padBsr buflen phrLen
  let bsr := chooseBsr ue m.info padded.bsrCeLen (m.bsrLen = 0)
  let p := padded.paddings buflen phrLen
  let h := generateUlschHeader buf (uint8 p.1) (sduLengths m.sdus) powerHeadroom none
    bsr.truncatedBsr bsr.shortBsr bsr.longBsr p.2
  let buffer := store h.1 h.2 (m.sdus.flatMap Prod.snd)
  let buffer := if p.2 ≠ 0 then store buffer (h.2 + m.sduLengthTotal)
    ((List.range (buflen - m.sduLengthTotal - h.2)).map fill) else buffer
  ({ sdus := m.sdus
     powerHeadroom
     bsr
     shortPadding := p.1
     postPadding := p.2
     payloadOffset := h.2
     buffer
     canceledAccess := m.sduLengthTotal = 0 ∧ 2 < padded.paddingLen buflen phrLen ∧
       padded.paddingLen buflen phrLen = buflen },
   { ue with
     rlc := m.rlc
     info := m.info
     bsrReportingActive := if padded.bsrCeLen ≠ 0 then 0 else ue.bsrTriggers })

/-- `ue_get_sdu`, for a grant on the primary carrier. `fill` are the random
octets behind the SDUs. -/
def ueGetSdu (R : UlRlc σ) (ue : UeUl σ) (g : UlGrant) (buf fill : ℕ → ℕ) :
    Except UlFailure (UlPdu × UeUl σ) :=
  if ue.bsrTriggers &&& bsrTriggerPadding ≠ 0 then .error .assertFatal
  else
    match multiplex R ue.usimTest g.buflen (ue.phrLen g.buflen)
      (List.range' dcch (maxNumLcid - dcch)) (ue.start g.buflen) with
    | .error e => .error e
    | .ok m => .ok (ue.assemble m g.buflen buf fill)

namespace UlMux

/-- The subheader lengths counted for SDUs that are not the last. -/
def countedHeader (sdus : List (ℕ × List ℕ)) : ℕ :=
  (sdus.map (fun sdu ↦ countedLen sdu.2.length)).sum

/-- What the variables say after the multiplexing so far: the grant holds
everything when the last subheader has one byte. -/
structure Fits (m : UlMux σ) (buflen phrLen : ℕ) : Prop where
  total : m.sduLengthTotal = sduBytes m.sdus
  lcid : ∀ sdu ∈ m.sdus, sdu.1 < maxNumLcid
  data : ∀ sdu ∈ m.sdus, sdu.2 ≠ []
  few : m.sdus.length ≤ maxUlSdus
  bsr : (m.bsrHeaderLen = 0 ∧ m.bsrCeLen = 0) ∨
    (m.bsrHeaderLen = 1 ∧ (m.bsrCeLen = 1 ∨ m.bsrCeLen = 3))
  header : m.totalRlcPduHeaderLen = countedHeader m.sdus.dropLast + m.rlcPduHeaderLenLast
  last : ∀ sdu, m.sdus.getLast? = some sdu → m.rlcPduHeaderLenLast = countedLen sdu.2.length ∨
    (m.allProcessed = true ∧ m.rlcPduHeaderLenLast = 1)
  empty : m.sdus = [] → m.totalRlcPduHeaderLen = 0 ∧ m.rlcPduHeaderLenLast = 0
  room : m.bsrLen + phrLen + countedHeader m.sdus.dropLast + m.sduLengthTotal +
    (if m.sdus = [] then 0 else 1) ≤ buflen

theorem countedLen_bounds (length : ℕ) : 2 ≤ countedLen length ∧ countedLen length ≤ 3 := by
  unfold countedLen
  split <;> decide

theorem countedHeader_concat (sdus : List (ℕ × List ℕ)) (sdu : ℕ × List ℕ) :
    countedHeader (sdus ++ [sdu]) = countedHeader sdus + countedLen sdu.2.length := by
  simp [countedHeader]

variable {m : UlMux σ} {buflen phrLen : ℕ}

theorem Fits.header_eq (h : m.Fits buflen phrLen) (hopen : m.allProcessed = false) :
    m.totalRlcPduHeaderLen = countedHeader m.sdus := by
  rcases m.sdus.eq_nil_or_concat' with hnil | ⟨front, sdu, hsdus⟩
  · rw [(h.empty hnil).1, hnil]
    rfl
  · have hlast := h.last sdu (by simp [hsdus])
    rw [hopen] at hlast
    simp only [Bool.false_eq_true, false_and, or_false] at hlast
    rw [h.header, hsdus, List.dropLast_concat, countedHeader_concat, hlast]

theorem Fits.add (h : m.Fits buflen phrLen) (hopen : m.allProcessed = false) {lcid : ℕ}
    (hlcid : lcid < maxNumLcid) {data : List ℕ} (hdata : data ≠ []) (rlc : σ)
    (hfew : m.sdus.length < maxUlSdus) (hroom : m.used phrLen + 1 + data.length ≤ buflen) :
    (m.add buflen phrLen lcid data rlc).Fits buflen phrLen := by
  have hheader := h.header_eq hopen
  unfold used at hroom
  refine ⟨?_, ?_, ?_, ?_, h.bsr, ?_, ?_, ?_, ?_⟩
  · simp [UlMux.add, h.total]
  · simpa [UlMux.add, or_imp, forall_and, hlcid] using h.lcid
  · simpa [UlMux.add, or_imp, forall_and, hdata] using h.data
  · simp only [UlMux.add, List.length_append, List.length_singleton]
    omega
  · simp [UlMux.add, hheader]
  · intro sdu hsdu
    have hsdu : (lcid, data) = sdu := by simpa [UlMux.add] using hsdu
    subst hsdu
    simp only [UlMux.add]
    split
    · next hfull => exact .inr ⟨hfull, rfl⟩
    · exact .inl rfl
  · simp [UlMux.add]
  · rw [if_neg (by simp [UlMux.add])]
    simp only [UlMux.add, bsrLen, List.dropLast_concat] at hroom ⊢
    omega

theorem Fits.settle (h : m.Fits buflen phrLen) (lcid old new : ℕ) :
    (m.settle lcid old new).Fits buflen phrLen := by
  unfold UlMux.settle
  dsimp only
  split
  · have hbsr := h.bsr
    have hroom := h.room
    set ceLen := if m.bsrLen ≠ 0 ∧ m.numLcg - 1 = 1 then 1 else m.bsrCeLen with hceLen
    have hcases : ceLen = m.bsrCeLen ∨ (ceLen = 1 ∧ m.bsrLen ≠ 0) := by
      rw [hceLen]
      split
      · next hshort => exact .inr ⟨rfl, hshort.1⟩
      · exact .inl rfl
    simp only [bsrLen] at hroom hcases
    refine ⟨h.total, h.lcid, h.data, h.few, ?_, h.header, h.last, h.empty, ?_⟩
    · change (m.bsrHeaderLen = 0 ∧ ceLen = 0) ∨ (m.bsrHeaderLen = 1 ∧ (ceLen = 1 ∨ ceLen = 3))
      omega
    · simp only [bsrLen]
      omega
  · exact ⟨h.total, h.lcid, h.data, h.few, h.bsr, h.header, h.last, h.empty, h.room⟩

theorem Fits.withRlc (h : m.Fits buflen phrLen) (rlc : σ) :
    ({ m with rlc } : UlMux σ).Fits buflen phrLen :=
  ⟨h.total, h.lcid, h.data, h.few, h.bsr, h.header, h.last, h.empty, h.room⟩

end UlMux

section

variable {R : UlRlc σ} {usimTest : Bool} {buflen phrLen : ℕ}

theorem multiplexSdus_fits {lcid : ℕ} (hlcid : lcid < maxNumLcid) {fuel count occupancy : ℕ}
    {m : UlMux σ} (h : m.Fits buflen phrLen) (hopen : m.allProcessed = false)
    {result : UlMux σ × ℕ}
    (hrun : multiplexSdus R usimTest buflen phrLen lcid fuel count m occupancy = .ok result) :
    result.1.Fits buflen phrLen := by
  induction fuel generalizing count m occupancy with
  | zero => simp [multiplexSdus] at hrun
  | succ fuel ih =>
    rw [multiplexSdus] at hrun
    split at hrun
    · next hmore =>
      split at hrun
      · rw [← Except.ok.inj hrun]
        exact h
      · split at hrun
        · simp at hrun
        · next hfew =>
          dsimp only at hrun
          split at hrun
          · simp at hrun
          · next hsize =>
            split at hrun
            · rw [← Except.ok.inj hrun]
              exact h.withRlc _
            · next hdata =>
              unfold minMacHdrRlcSize at hmore
              have hadd := h.add hopen hlcid hdata
                (R.dataReq m.rlc lcid (buflen - (m.used phrLen + 1))).2 (by omega) (by omega)
              split at hrun
              · rw [← Except.ok.inj hrun]
                exact hadd
              · next hstill => exact ih hadd (by simpa using hstill) hrun
    · rw [← Except.ok.inj hrun]
      exact h

theorem multiplexLcid_fits {lcid : ℕ} (hlcid : lcid < maxNumLcid) {m m' : UlMux σ}
    (h : m.Fits buflen phrLen) (hopen : m.allProcessed = false)
    (hrun : multiplexLcid R usimTest buflen phrLen lcid m = .ok m') : m'.Fits buflen phrLen := by
  unfold multiplexLcid at hrun
  split at hrun
  · dsimp only at hrun
    split at hrun
    · simp at hrun
    · split at hrun
      · simp at hrun
      · next m₁ new hsdus =>
        split at hrun
        · simp at hrun
        · rw [← Except.ok.inj hrun]
          exact (multiplexSdus_fits hlcid h hopen hsdus).settle lcid _ new
  · rw [← Except.ok.inj hrun]
    exact h

theorem multiplex_fits {lcids : List ℕ} (hlcids : ∀ lcid ∈ lcids, lcid < maxNumLcid)
    {m m' : UlMux σ} (h : m.Fits buflen phrLen)
    (hrun : multiplex R usimTest buflen phrLen lcids m = .ok m') : m'.Fits buflen phrLen := by
  induction lcids generalizing m with
  | nil =>
    rw [← Except.ok.inj hrun]
    exact h
  | cons lcid lcids ih =>
    obtain ⟨hlcid, hlcids⟩ := List.forall_mem_cons.mp hlcids
    rw [multiplex] at hrun
    split at hrun
    · rw [← Except.ok.inj hrun]
      exact h
    · next hopen =>
      split at hrun
      · simp at hrun
      · next m₁ hone => exact ih hlcids (multiplexLcid_fits hlcid h (by simpa using hopen) hone) hrun

/-- The array bound ends the inner loop before the fuel does. -/
theorem multiplexSdus_fuel {lcid fuel count occupancy : ℕ} {m : UlMux σ}
    (hfuel : maxUlSdus ≤ fuel + m.sdus.length) :
    multiplexSdus R usimTest buflen phrLen lcid (fuel + 2) count m occupancy =
      multiplexSdus R usimTest buflen phrLen lcid (fuel + 1) count m occupancy := by
  induction fuel generalizing count m occupancy with
  | zero =>
    have hfull : maxUlSdus ≤ m.sdus.length := by omega
    simp only [multiplexSdus, hfull, if_true]
  | succ fuel ih =>
    have hadd : ∀ (data : List ℕ) (rlc : σ) (occupancy : ℕ),
        multiplexSdus R usimTest buflen phrLen lcid (fuel + 2) (count + 1)
            (m.add buflen phrLen lcid data rlc) occupancy =
          multiplexSdus R usimTest buflen phrLen lcid (fuel + 1) (count + 1)
            (m.add buflen phrLen lcid data rlc) occupancy := by
      intro data rlc occupancy
      apply ih
      simp only [UlMux.add, List.length_append, List.length_singleton]
      omega
    rw [multiplexSdus, multiplexSdus]
    simp only [hadd]

end

theorem UeUl.start_fits (ue : UeUl σ) (buflen : ℕ) :
    (ue.start buflen).Fits buflen (ue.phrLen buflen) := by
  have hbsr : ((ue.start buflen).bsrHeaderLen = 0 ∧ (ue.start buflen).bsrCeLen = 0) ∨
      (4 ≤ buflen ∧ (ue.start buflen).bsrHeaderLen = 1 ∧
        ((ue.start buflen).bsrCeLen = 1 ∨ (ue.start buflen).bsrCeLen = 3)) := by
    simp only [UeUl.start]
    split
    · next h =>
      refine .inr ⟨h.2, rfl, ?_⟩
      split <;> simp
    · exact .inl ⟨rfl, rfl⟩
  have hphr : (ue.start buflen).bsrLen + ue.phrLen buflen ≤ buflen := by
    unfold UeUl.phrLen UlMux.bsrLen
    split <;> omega
  refine ⟨rfl, by simp [UeUl.start], by simp [UeUl.start], by simp [UeUl.start], ?_, rfl,
    by simp [UeUl.start], fun _ ↦ ⟨rfl, rfl⟩, ?_⟩
  · rcases hbsr with h | h
    · exact .inl h
    · exact .inr h.2
  · exact hphr

end EdgeSlice.Mac
