import EdgeSlice.Mac.UeGetSdu
import EdgeSlice.Mac.UlschControl

namespace EdgeSlice.Mac

open Function ByteMemory Chain

/-- The grant holds the block, and the eNB finds the PDUs that RLC gave. -/
structure UlPdu.Faithful (p : UlPdu) (buflen : ℕ) : Prop where
  fits : p.payloadOffset + sduBytes p.sdus ≤ buflen
  parsed : ∃ s, parseUlschHeader p.buffer buflen = .ok s ∧ s.lcids = p.sdus.map Prod.fst ∧
    s.lengths = p.sdus.map (fun sdu ↦ sdu.2.length)

theorem length_le_sduBytes {sdus : List (ℕ × List ℕ)} {sdu : ℕ × List ℕ} (h : sdu ∈ sdus) :
    sdu.2.length ≤ sduBytes sdus := by
  obtain ⟨front, rest, rfl⟩ := List.append_of_mem h
  rw [sduBytes_append, sduBytes_cons]
  omega

namespace UlPdu

def elements (p : UlPdu) : List (ℕ × List ℕ) :=
  ulschElements p.powerHeadroom none p.bsr.truncatedBsr p.bsr.shortBsr p.bsr.longBsr

def items (p : UlPdu) : List Subheader :=
  headerItems (HeaderState.padCount p.shortPadding) (p.elements.map Prod.fst) (sduLengths p.sdus)
    p.postPadding

def octets (p : UlPdu) : List ℕ :=
  ulschOctets p.shortPadding (sduLengths p.sdus) p.elements p.postPadding

/-- The bytes of the control elements, with their subheaders. -/
def ceBytes (p : UlPdu) : ℕ := p.elements.length + (p.elements.flatMap Prod.snd).length

/-- A block that starts with its header. -/
structure Built (p : UlPdu) : Prop where
  lcid : ∀ sdu ∈ p.sdus, sdu.1 < maxNumLcid
  few : p.sdus.length ≤ maxUlSdus
  ne_nil : p.items ≠ []
  offset : p.payloadOffset = p.octets.length
  stored : Stores p.buffer 0 p.octets

def header (p : UlPdu) (buf : ℕ → ℕ) : (ℕ → ℕ) × ℕ :=
  generateUlschHeader buf (uint8 p.shortPadding) (sduLengths p.sdus) p.powerHeadroom none
    p.bsr.truncatedBsr p.bsr.shortBsr p.bsr.longBsr p.postPadding

theorem octets_length (p : UlPdu) : p.octets.length =
    (chain Subheader.encode p.items).length + (p.elements.flatMap Prod.snd).length :=
  List.length_append

theorem built {p : UlPdu} (buf : ℕ → ℕ) (hlcid : ∀ sdu ∈ p.sdus, sdu.1 < maxNumLcid)
    (hfew : p.sdus.length ≤ maxUlSdus) (hshort : p.shortPadding < 256)
    (hpad : p.shortPadding = 0 ∨ p.postPadding = 0) (hne : p.items ≠ [])
    (hoffset : p.payloadOffset = (p.header buf).2)
    (hbuffer : ∀ bs, Stores (p.header buf).1 0 bs → bs.length ≤ (p.header buf).2 →
      Stores p.buffer 0 bs) : p.Built := by
  have hsdus : (sduLengths p.sdus).length ≤ nbRbMax := by
    rw [sduLengths, List.length_map]
    exact hfew.trans (by decide)
  have hlt : p.octets.length < 256 := ulschOctets_length p.powerHeadroom none p.bsr.truncatedBsr
    p.bsr.shortBsr p.bsr.longBsr hsdus
  have hspec := generateUlschHeader_spec buf p.shortPadding (sduLengths p.sdus) p.powerHeadroom
    none p.bsr.truncatedBsr p.bsr.shortBsr p.bsr.longBsr p.postPadding hpad hne
  have hheader : Stores (p.header buf).1 0 p.octets ∧ (p.header buf).2 = p.octets.length := by
    rw [header, uint8_of_lt hshort]
    exact ⟨hspec.1, hspec.2.trans (uint8_of_lt hlt)⟩
  exact ⟨hlcid, hfew, hne, hoffset.trans hheader.2, hbuffer _ hheader.1 hheader.2.ge⟩

end UlPdu

theorem UlPdu.Built.faithful_iff {p : UlPdu} (h : p.Built) (buflen : ℕ) :
    p.Faithful buflen ↔ p.octets.length + sduBytes p.sdus ≤ buflen ∧
      readLengths buflen (chain Subheader.encode p.items).length
        (p.elements.flatMap Prod.snd).length (sduLengths p.sdus) p.postPadding =
        p.sdus.map (fun sdu ↦ sdu.2.length) := by
  have hfew : (sduLengths p.sdus).length ≤ nbRbMax := by
    rw [sduLengths, List.length_map]
    exact h.few.trans (by decide)
  have hsdus : ∀ sdu ∈ sduLengths p.sdus, sdu.1 < extendedPowerHeadroom := by
    intro x hx
    obtain ⟨sdu, hsdu, rfl⟩ := List.mem_map.mp hx
    exact (h.lcid sdu hsdu).trans (by decide)
  have hces : ∀ c ∈ p.elements.map Prod.fst, extendedPowerHeadroom ≤ c ∧ c < 32 := by
    intro c hc
    rcases ulschElements_lcid c hc with rfl | rfl | rfl | rfl | rfl <;> decide
  have hlcids : (sduLengths p.sdus).map Prod.fst = p.sdus.map Prod.fst := by
    simp [sduLengths, Function.comp_def]
  have hpayload : ((p.elements.map Prod.fst).map ulCeLength).sum =
      (p.elements.flatMap Prod.snd).length := ulschElements_payload
  have hparse : p.octets.length + sduBytes p.sdus ≤ buflen → parseUlschHeader p.buffer buflen =
      .ok (.found ulCeLength buflen (HeaderState.padCount p.shortPadding)
        (p.elements.map Prod.fst) (sduLengths p.sdus) p.postPadding) := by
    intro hle
    rw [p.octets_length] at hle
    have hchain : (chain Subheader.encode p.items).length ≤ buflen := by omega
    exact parseSubheaders_found (by decide) (ulsch_accepted _ _ _ hfew h.ne_nil) hces hsdus buflen
      (stores_append.mp h.stored).1 hchain
  constructor
  · intro h
    obtain ⟨hfits, s, hs, -, hlengths⟩ := h
    rw [h.offset] at hfits
    rw [hparse hfits, Except.ok.injEq] at hs
    subst hs
    simp only [ParseState.found, hpayload] at hlengths
    exact ⟨hfits, hlengths⟩
  · intro h
    obtain ⟨hfits, hlengths⟩ := h
    refine ⟨by rw [h.offset]; exact hfits, _, hparse hfits, hlcids, ?_⟩
    simp only [ParseState.found, hpayload]
    exact hlengths

section

variable {sdus : List (ℕ × List ℕ)} {postPadding buflen : ℕ}

theorem readLengths_padded (hlen : ∀ sdu ∈ sdus, sdu.2.length < 32768) (header payload : ℕ)
    (hpost : 0 < postPadding) :
    readLengths buflen header payload (sduLengths sdus) postPadding =
      sdus.map (fun sdu ↦ sdu.2.length) := by
  rw [readLengths, if_pos hpost, sduLengths, List.map_map]
  exact List.map_congr_left fun sdu hsdu ↦ Nat.mod_eq_of_lt (hlen sdu hsdu)

theorem readLengths_bare (hlen : ∀ sdu ∈ sdus, sdu.2.length < 32768) (last : ℕ × List ℕ)
    (buflen header payload : ℕ) :
    readLengths buflen header payload (sduLengths (sdus ++ [last])) 0 =
        (sdus ++ [last]).map (fun sdu ↦ sdu.2.length) ↔
      uint16 (buflen - header - payload - sduBytes sdus) = last.2.length := by
  have hmod : (sduLengths sdus).map (fun sdu ↦ sdu.2 % 32768) =
      sdus.map (fun sdu ↦ sdu.2.length) := by
    rw [sduLengths, List.map_map]
    exact List.map_congr_left fun sdu hsdu ↦ Nat.mod_eq_of_lt (hlen sdu hsdu)
  have happend : sduLengths (sdus ++ [last]) = sduLengths sdus ++ [(last.1, last.2.length)] := by
    simp [sduLengths]
  have hsum : (sdus.map (fun sdu ↦ sdu.2.length)).sum = sduBytes sdus := rfl
  rw [happend, readLengths, if_neg (by decide), if_neg (by simp), List.dropLast_concat, hmod]
  dsimp only
  rw [hsum, List.map_append, List.append_right_inj, List.map_singleton]
  exact ⟨fun h ↦ (List.cons.inj h).1, fun h ↦ by rw [h]⟩

end

namespace UlPdu.Built

variable {p : UlPdu} {buflen : ℕ}

theorem padded_iff (h : p.Built) (hbuflen : buflen ≤ maxUlschPayloadBytes)
    (hpost : 0 < p.postPadding) :
    p.Faithful buflen ↔ HeaderState.padCount p.shortPadding + p.ceBytes + headerLen p.sdus + 1 +
      sduBytes p.sdus ≤ buflen := by
  have hlength := padded_length (HeaderState.padCount p.shortPadding) (p.elements.map Prod.fst)
    p.sdus hpost
  rw [List.length_map] at hlength
  rw [h.faithful_iff, p.octets_length, items, hlength, ceBytes]
  constructor
  · intro h
    obtain ⟨hfits, -⟩ := h
    omega
  · intro hfits
    refine ⟨by omega, readLengths_padded (fun sdu hsdu ↦ ?_) _ _ hpost⟩
    have hle := length_le_sduBytes hsdu
    unfold maxUlschPayloadBytes at hbuflen
    omega

theorem bare_iff (h : p.Built) (hbuflen : buflen ≤ maxUlschPayloadBytes) (hpost : p.postPadding = 0)
    {front : List (ℕ × List ℕ)} {last : ℕ × List ℕ} (hsdus : p.sdus = front ++ [last]) :
    p.Faithful buflen ↔ HeaderState.padCount p.shortPadding + p.ceBytes + headerLen front + 1 +
      sduBytes p.sdus = buflen := by
  have hlength := bare_length (HeaderState.padCount p.shortPadding) (p.elements.map Prod.fst)
    front last
  have hsum : sduBytes p.sdus = sduBytes front + last.2.length := by simp [hsdus]
  have hlen : sduBytes p.sdus ≤ buflen → ∀ sdu ∈ front, sdu.2.length < 32768 := by
    intro hle sdu hsdu
    have := length_le_sduBytes hsdu
    unfold maxUlschPayloadBytes at hbuflen
    omega
  unfold maxUlschPayloadBytes at hbuflen
  rw [List.length_map] at hlength
  rw [h.faithful_iff, p.octets_length, items, hpost, ceBytes]
  have hread := fun hle ↦ readLengths_bare (hlen hle) last buflen
    (chain Subheader.encode (headerItems (HeaderState.padCount p.shortPadding)
      (p.elements.map Prod.fst) (sduLengths p.sdus) 0)).length
    (p.elements.flatMap Prod.snd).length
  rw [← hsdus] at hread hlength
  rw [hlength] at hread ⊢
  unfold uint16 at hread
  constructor
  · intro h
    obtain ⟨hfits, hlengths⟩ := h
    have := (hread (by omega)).mp hlengths
    omega
  · intro hfits
    exact ⟨by omega, (hread (by omega)).mpr (by omega)⟩

theorem control_iff (h : p.Built) (hpost : p.postPadding = 0) (hsdus : p.sdus = []) :
    p.Faithful buflen ↔ HeaderState.padCount p.shortPadding + p.ceBytes ≤ buflen := by
  have hlength := control_length (HeaderState.padCount p.shortPadding) (p.elements.map Prod.fst)
  have hnil : sduLengths [] = [] := rfl
  rw [List.length_map] at hlength
  rw [h.faithful_iff, p.octets_length, items, hpost, hsdus, hnil, hlength, ceBytes, sduBytes_nil]
  constructor
  · intro h
    obtain ⟨hfits, -⟩ := h
    omega
  · intro hfits
    exact ⟨by omega, rfl⟩

end UlPdu.Built

namespace UlMux

variable {σ : Type*} {m : UlMux σ} {buflen phrLen : ℕ}

/-- The bytes that are left when the last subheader has one byte. -/
def spare (m : UlMux σ) (buflen phrLen : ℕ) : ℕ :=
  buflen - (m.bsrLen + phrLen + countedHeader m.sdus.dropLast + sduBytes m.sdus +
    if m.sdus = [] then 0 else 1)

theorem Fits.total_eq_zero (h : m.Fits buflen phrLen) : m.sduLengthTotal = 0 ↔ m.sdus = [] := by
  rw [h.total]
  constructor
  · intro hzero
    by_contra hne
    obtain ⟨sdu, rest, hsdus⟩ := List.exists_cons_of_ne_nil hne
    have hdata := h.data sdu (by simp [hsdus])
    have hpos := List.length_pos_iff.mpr hdata
    rw [hsdus, sduBytes_cons] at hzero
    omega
  · intro hnil
    rw [hnil]
    rfl

theorem Fits.paddingLen_eq (h : m.Fits buflen phrLen) (hbuflen : buflen ≤ maxUlschPayloadBytes) :
    m.paddingLen buflen phrLen = m.spare buflen phrLen := by
  have hroom := h.room
  have hheader := h.header
  have htotal := h.total
  unfold maxUlschPayloadBytes at hbuflen
  unfold paddingLen spare uint16
  by_cases hnil : m.sdus = []
  · rw [if_neg (by simpa using h.total_eq_zero.mpr hnil), if_pos hnil]
    rw [if_pos hnil] at hroom
    have hzero : m.sduLengthTotal = 0 := h.total_eq_zero.mpr hnil
    have hempty : countedHeader m.sdus.dropLast = 0 := by rw [hnil]; rfl
    omega
  · rw [if_pos (fun h' ↦ hnil (h.total_eq_zero.mp h')), if_neg hnil]
    rw [if_neg hnil] at hroom
    omega

@[simp] theorem padBsr_sdus : (m.padBsr buflen phrLen).sdus = m.sdus := by
  unfold padBsr
  split
  · split
    · rfl
    · split <;> rfl
  · rfl

theorem Fits.padBsr (h : m.Fits buflen phrLen) (hbuflen : buflen ≤ maxUlschPayloadBytes) :
    (m.padBsr buflen phrLen).Fits buflen phrLen := by
  have hroom := h.room
  have hspare := h.paddingLen_eq hbuflen
  have htotal := h.total
  unfold spare at hspare
  have hreport : ∀ ceLen, ceLen = 1 ∨ ceLen = 3 → m.bsrLen = 0 →
      1 + ceLen ≤ m.paddingLen buflen phrLen →
      ({ m with bsrHeaderLen := 1, bsrCeLen := ceLen } : UlMux σ).Fits buflen phrLen := by
    intro ceLen hce hzero hle
    refine ⟨h.total, h.lcid, h.data, h.few, .inr ⟨rfl, hce⟩, h.header, h.last, h.empty, ?_⟩
    simp only [bsrLen]
    omega
  unfold UlMux.padBsr
  split
  · next hpad =>
    split
    · exact hreport 3 (.inr rfl) hpad.2 (by omega)
    · split
      · exact hreport 1 (.inl rfl) hpad.2 (by omega)
      · exact h
  · exact h

theorem Fits.paddings_empty (h : m.Fits buflen phrLen) (hbuflen : buflen ≤ maxUlschPayloadBytes)
    (hnil : m.sdus = []) :
    m.paddings buflen phrLen = if m.spare buflen phrLen ≤ 2 then (m.spare buflen phrLen, 0)
      else (0, m.spare buflen phrLen - 1) := by
  have hzero := h.total_eq_zero.mpr hnil
  have hempty := h.empty hnil
  have hroom := h.room
  have hcounted : countedHeader m.sdus.dropLast = 0 := by rw [hnil]; rfl
  have hbytes : sduBytes m.sdus = 0 := by rw [hnil]; rfl
  have hspare : m.spare buflen phrLen = buflen - (m.bsrLen + phrLen +
      countedHeader m.sdus.dropLast + sduBytes m.sdus + 0) := by rw [spare, if_pos hnil]
  rw [if_pos hnil] at hroom
  unfold maxUlschPayloadBytes at hbuflen
  have hpost : ¬ m.spare buflen phrLen ≤ 2 → uint16 ((buflen : ℤ) - (m.used phrLen + 1)) =
      m.spare buflen phrLen - 1 := by
    intro hmore
    unfold used uint16
    omega
  have hnone : ¬ m.sduLengthTotal ≠ 0 := by simpa using hzero
  unfold paddings
  rw [h.paddingLen_eq hbuflen]
  simp only [hnone, if_false]
  split
  · rfl
  · next hmore => rw [hpost hmore]

/-- The paddings behind SDUs: without room for the subheader of the last one
they become three bytes of short padding. -/
theorem Fits.paddings_sdus (h : m.Fits buflen phrLen) (hbuflen : buflen ≤ maxUlschPayloadBytes)
    (hne : m.sdus ≠ []) :
    m.paddings buflen phrLen = if m.spare buflen phrLen ≤ 2 then (m.spare buflen phrLen, 0)
      else if m.spare buflen phrLen = 3 ∧ m.rlcPduHeaderLenLast = 3 then (3, 0)
      else (0, m.spare buflen phrLen - m.rlcPduHeaderLenLast) := by
  have htotal := h.total
  have hheader := h.header
  have hroom := h.room
  have hlast : 1 ≤ m.rlcPduHeaderLenLast ∧ m.rlcPduHeaderLenLast ≤ 3 := by
    obtain ⟨front, sdu, hsdus⟩ := (m.sdus.eq_nil_or_concat').resolve_left hne
    have hb := countedLen_bounds sdu.2.length
    rcases h.last sdu (by simp [hsdus]) with h' | ⟨-, h'⟩ <;> omega
  unfold paddings
  rw [h.paddingLen_eq hbuflen, if_pos (fun h' ↦ hne (h.total_eq_zero.mp h'))]
  have hspare : m.spare buflen phrLen = buflen - (m.bsrLen + phrLen +
      countedHeader m.sdus.dropLast + sduBytes m.sdus + 1) := by rw [spare, if_neg hne]
  rw [if_neg hne] at hroom
  unfold maxUlschPayloadBytes at hbuflen
  have hpost : 3 ≤ m.spare buflen phrLen → uint16 ((buflen : ℤ) - (m.used phrLen + 1)) =
      m.spare buflen phrLen - m.rlcPduHeaderLenLast := by
    intro hle
    unfold used uint16
    omega
  have hshort : uint16 ((buflen : ℤ) - (m.used phrLen - m.rlcPduHeaderLenLast + 1)) =
      m.spare buflen phrLen := by
    unfold used uint16
    omega
  split
  · rfl
  · next hmore =>
    dsimp only
    rw [hpost (by omega), hshort]
    split
    · next hzero => rw [if_pos (by omega), show m.spare buflen phrLen = 3 by omega]
    · next hzero => rw [if_neg (by omega)]

/-- The SDUs of exactly 128 bytes: their subheaders count two bytes and take
three. -/
def miscounted (sdus : List (ℕ × List ℕ)) : ℕ := sdus.countP (fun sdu ↦ sdu.2.length = 128)

/-- When the header that was counted is the header that is written. Three bytes
that are left behind a last SDU counted with three bytes become short padding,
which the generator does not write. -/
def LayoutAgrees (m : UlMux σ) (buflen phrLen : ℕ) : Prop :=
  match m.sdus.getLast? with
  | none => buflen ≠ 0
  | some last =>
    if m.spare buflen phrLen ≤ 2 then miscounted m.sdus.dropLast = 0
    else if m.spare buflen phrLen = 3 ∧ m.rlcPduHeaderLenLast = 3 then
      miscounted m.sdus.dropLast = 3
    else miscounted m.sdus.dropLast + sduHeaderLen last.2.length ≤ m.spare buflen phrLen

theorem headerLen_eq (sdus : List (ℕ × List ℕ)) :
    headerLen sdus = countedHeader sdus + miscounted sdus := by
  induction sdus with
  | nil => rfl
  | cons sdu sdus ih =>
    have hcons : countedHeader (sdu :: sdus) = countedLen sdu.2.length + countedHeader sdus := by
      simp [countedHeader]
    rw [headerLen_cons, ih, hcons, miscounted, miscounted, List.countP_cons]
    unfold sduHeaderLen countedLen
    simp only [decide_eq_true_eq]
    split <;> split <;> split <;> omega

end UlMux

theorem chooseBsr_bytes {σ : Type*} (ue : UeUl σ) (info : SchedulingInfo) {ceLen : ℕ}
    (hce : ceLen = 0 ∨ ceLen = 1 ∨ ceLen = 3) (padding : Bool) {b : UlBsr}
    (hb : b = chooseBsr ue info ceLen padding) :
    (bsrElement b.truncatedBsr b.shortBsr b.longBsr).toList.length +
      ((bsrElement b.truncatedBsr b.shortBsr b.longBsr).toList.flatMap Prod.snd).length =
      if ceLen = 0 then 0 else 1 + ceLen := by
  subst hb
  unfold chooseBsr
  rcases hce with rfl | rfl | rfl
  · rfl
  · dsimp only
    rw [if_neg (by decide), if_neg (by decide)]
    split <;> rfl
  · rfl

section

variable {σ : Type*} {ue : UeUl σ} {m : UlMux σ} {buflen : ℕ}

theorem UeUl.phrLen_cases (ue : UeUl σ) (buflen : ℕ) :
    ue.phrLen buflen = 0 ∨ ue.phrLen buflen = 2 := by
  unfold UeUl.phrLen
  split
  · exact .inr rfl
  · exact .inl rfl

theorem UeUl.assemble_ceBytes (h : (m.padBsr buflen (ue.phrLen buflen)).Fits buflen
    (ue.phrLen buflen)) (buf fill : ℕ → ℕ) : (ue.assemble m buflen buf fill).1.ceBytes =
      (m.padBsr buflen (ue.phrLen buflen)).bsrLen + ue.phrLen buflen := by
  set padded := m.padBsr buflen (ue.phrLen buflen)
  have hbsr := h.bsr
  have hreport := chooseBsr_bytes ue m.info (show padded.bsrCeLen = 0 ∨ padded.bsrCeLen = 1 ∨
    padded.bsrCeLen = 3 by omega) (decide (m.bsrLen = 0)) rfl
  have hlen : padded.bsrLen = if padded.bsrCeLen = 0 then 0 else 1 + padded.bsrCeLen := by
    unfold UlMux.bsrLen
    split <;> omega
  set report := bsrElement (ue.assemble m buflen buf fill).1.bsr.truncatedBsr
    (ue.assemble m buflen buf fill).1.bsr.shortBsr (ue.assemble m buflen buf fill).1.bsr.longBsr
  have hreport : report.toList.length + (report.toList.flatMap Prod.snd).length = padded.bsrLen :=
    hreport.trans hlen.symm
  have hphr : (ue.assemble m buflen buf fill).1.powerHeadroom =
      if ue.phrLen buflen = 0 then none else some ⟨ue.phrMapping, 0⟩ := rfl
  have helements : (ue.assemble m buflen buf fill).1.elements =
      ((ue.assemble m buflen buf fill).1.powerHeadroom.map
        (fun p ↦ (powerHeadroomLcid, p.octets))).toList ++ [] ++ report.toList := rfl
  rw [UlPdu.ceBytes, helements, hphr]
  rcases ue.phrLen_cases buflen with h₀ | h₂
  · rw [if_pos h₀, h₀]
    exact hreport
  · rw [if_neg (by omega), h₂]
    simp only [Option.map_some, Option.toList_some, List.append_nil, List.length_append,
      List.flatMap_append, List.flatMap_singleton, PowerHeadroomCmd.octets, List.length_singleton]
    omega

theorem UlMux.Fits.paddings_cases {phrLen : ℕ} (h : m.Fits buflen phrLen)
    (hbuflen : buflen ≤ maxUlschPayloadBytes) :
    (m.paddings buflen phrLen).1 ≤ 3 ∧
      ((m.paddings buflen phrLen).1 = 0 ∨ (m.paddings buflen phrLen).2 = 0) := by
  by_cases hnil : m.sdus = []
  · rw [h.paddings_empty hbuflen hnil]
    split <;> simp
    omega
  · rw [h.paddings_sdus hbuflen hnil]
    split
    · exact ⟨by dsimp only; omega, .inr rfl⟩
    · split <;> simp

theorem UeUl.assemble_payloadOffset (ue : UeUl σ) (m : UlMux σ) (buflen : ℕ)
    (buf fill : ℕ → ℕ) :
    (ue.assemble m buflen buf fill).1.payloadOffset =
      ((ue.assemble m buflen buf fill).1.header buf).2 := by
  simp only [UeUl.assemble, UlPdu.header]

theorem UeUl.assemble_buffer {buf fill : ℕ → ℕ} {bs : List ℕ}
    (h : Stores ((ue.assemble m buflen buf fill).1.header buf).1 0 bs)
    (hlen : bs.length ≤ ((ue.assemble m buflen buf fill).1.header buf).2) :
    Stores (ue.assemble m buflen buf fill).1.buffer 0 bs := by
  simp only [UeUl.assemble, UlPdu.header] at h hlen ⊢
  split
  · exact (h.store_after (by omega)).store_after (by omega)
  · exact h.store_after (by omega)

theorem UeUl.assemble_built (hm : m.Fits buflen (ue.phrLen buflen))
    (hbuflen : buflen ≤ maxUlschPayloadBytes) {buf fill : ℕ → ℕ}
    (hne : (ue.assemble m buflen buf fill).1.items ≠ []) :
    (ue.assemble m buflen buf fill).1.Built := by
  have hsdus : (ue.assemble m buflen buf fill).1.sdus = m.sdus := rfl
  have hlcid := hm.lcid
  have hfew := hm.few
  rw [← hsdus] at hlcid hfew
  obtain ⟨hshort, hone⟩ := (hm.padBsr hbuflen).paddings_cases hbuflen
  exact UlPdu.built buf hlcid hfew (hshort.trans_lt (by decide)) hone hne
    (ue.assemble_payloadOffset m buflen buf fill) (fun _ ↦ UeUl.assemble_buffer)

/-- A block whose control elements and paddings are those of the variables `m`. -/
structure UlMux.Describes (m : UlMux σ) (buflen phrLen : ℕ) (p : UlPdu) : Prop where
  sdus : p.sdus = m.sdus
  pads : (p.shortPadding, p.postPadding) = m.paddings buflen phrLen
  ceBytes : p.ceBytes = m.bsrLen + phrLen
  built : p.items ≠ [] → p.Built

theorem UeUl.assemble_described (hm : m.Fits buflen (ue.phrLen buflen))
    (hbuflen : buflen ≤ maxUlschPayloadBytes) (buf fill : ℕ → ℕ) :
    (m.padBsr buflen (ue.phrLen buflen)).Describes buflen (ue.phrLen buflen)
      (ue.assemble m buflen buf fill).1 :=
  ⟨UlMux.padBsr_sdus.symm, rfl, UeUl.assemble_ceBytes (hm.padBsr hbuflen) buf fill,
    UeUl.assemble_built hm hbuflen⟩

namespace UlMux

variable {phrLen : ℕ} {p : UlPdu}

theorem Describes.faithful_empty (d : m.Describes buflen phrLen p) (h : m.Fits buflen phrLen)
    (hbuflen : buflen ≤ maxUlschPayloadBytes) (hnil : m.sdus = []) :
    p.Faithful buflen ↔ buflen ≠ 0 := by
  constructor
  · rintro ⟨-, s, hs, -⟩ rfl
    exact absurd hs (by simp [parseUlschHeader, parseSubheaders, loop])
  · intro hpos
    have hpads := d.pads
    have hce := d.ceBytes
    have hsdus : p.sdus = [] := d.sdus.trans hnil
    have hroom := h.room
    have hspare : m.spare buflen phrLen = buflen - (m.bsrLen + phrLen) := by
      simp [spare, hnil, countedHeader]
    rw [h.paddings_empty hbuflen hnil] at hpads
    have hle : m.bsrLen + phrLen ≤ buflen := (le_trans (by omega) hroom)
    split at hpads
    · next hfew =>
      obtain ⟨hshort, hpost⟩ := Prod.mk.inj hpads
      have hcount : HeaderState.padCount p.shortPadding = p.shortPadding :=
        padCount_of_le (by omega)
      have hne : p.items ≠ [] := by
        apply headerItems_ne_nil.mpr
        by_cases hnone : p.elements = []
        · have hzero : p.ceBytes = 0 := by simp [UlPdu.ceBytes, hnone]
          exact .inl (by omega)
        · exact .inr (.inl (by simpa using hnone))
      rw [(d.built hne).control_iff hpost hsdus]
      omega
    · next hmore =>
      obtain ⟨hshort, hpost⟩ := Prod.mk.inj hpads
      have hpos : 0 < p.postPadding := by omega
      have hcount : HeaderState.padCount p.shortPadding = 0 := by rw [hshort]; rfl
      have hne : p.items ≠ [] := headerItems_ne_nil.mpr (.inr (.inr (.inr hpos)))
      rw [(d.built hne).padded_iff hbuflen hpos, hsdus, headerLen_nil, sduBytes_nil]
      omega

theorem Describes.faithful_sdus (d : m.Describes buflen phrLen p) (h : m.Fits buflen phrLen)
    (hbuflen : buflen ≤ maxUlschPayloadBytes) {front : List (ℕ × List ℕ)} {last : ℕ × List ℕ}
    (hlast : m.sdus = front ++ [last]) :
    p.Faithful buflen ↔
      if m.spare buflen phrLen ≤ 2 then miscounted front = 0
      else if m.spare buflen phrLen = 3 ∧ m.rlcPduHeaderLenLast = 3 then miscounted front = 3
      else miscounted front + sduHeaderLen last.2.length ≤ m.spare buflen phrLen := by
  have hpads := d.pads
  have hce := d.ceBytes
  have hsdus : p.sdus = front ++ [last] := d.sdus.trans hlast
  have hroom := h.room
  have hnonempty : m.sdus ≠ [] := by simp [hlast]
  have hspare : m.spare buflen phrLen =
      buflen - (m.bsrLen + phrLen + countedHeader front + sduBytes p.sdus + 1) := by
    rw [spare, if_neg hnonempty, hlast, List.dropLast_concat, hsdus]
  have hheader := headerLen_eq front
  have hne : p.items ≠ [] :=
    headerItems_ne_nil.mpr (.inr (.inr (.inl (by simp [sduLengths, hsdus]))))
  have hbuilt := d.built hne
  have hall : headerLen p.sdus = headerLen front + sduHeaderLen last.2.length := by
    simp [hsdus]
  rw [if_neg hnonempty, h.total, ← d.sdus, hsdus, List.dropLast_concat, ← hsdus] at hroom
  rw [h.paddings_sdus hbuflen hnonempty] at hpads
  split
  · next hfew =>
    rw [if_pos hfew] at hpads
    obtain ⟨hshort, hpost⟩ := Prod.mk.inj hpads
    have hcount : HeaderState.padCount p.shortPadding = p.shortPadding :=
      padCount_of_le (by omega)
    rw [hbuilt.bare_iff hbuflen hpost hsdus]
    omega
  · next hmore =>
    rw [if_neg hmore] at hpads
    split
    · next hthree =>
      rw [if_pos hthree] at hpads
      obtain ⟨hshort, hpost⟩ := Prod.mk.inj hpads
      have hcount : HeaderState.padCount p.shortPadding = 0 := by rw [hshort]; rfl
      rw [hbuilt.bare_iff hbuflen hpost hsdus]
      omega
    · next hthree =>
      rw [if_neg hthree] at hpads
      obtain ⟨hshort, hpost⟩ := Prod.mk.inj hpads
      have hcount : HeaderState.padCount p.shortPadding = 0 := by rw [hshort]; rfl
      have hlen : m.rlcPduHeaderLenLast ≤ 3 := by
        have hb := countedLen_bounds last.2.length
        rcases h.last last (by simp [hlast]) with h' | ⟨-, h'⟩ <;> omega
      rw [hbuilt.padded_iff hbuflen (by omega)]
      omega

end UlMux

theorem UeUl.assemble_faithful_iff (hm : m.Fits buflen (ue.phrLen buflen))
    (hbuflen : buflen ≤ maxUlschPayloadBytes) (buf fill : ℕ → ℕ) :
    (ue.assemble m buflen buf fill).1.Faithful buflen ↔
      (m.padBsr buflen (ue.phrLen buflen)).LayoutAgrees buflen (ue.phrLen buflen) := by
  have hfits := hm.padBsr hbuflen
  have hdescribed := UeUl.assemble_described hm hbuflen buf fill
  unfold UlMux.LayoutAgrees
  rcases (m.padBsr buflen (ue.phrLen buflen)).sdus.eq_nil_or_concat' with
    hnil | ⟨front, last, hlast⟩
  · rw [hdescribed.faithful_empty hfits hbuflen hnil, hnil]
    rfl
  · rw [hdescribed.faithful_sdus hfits hbuflen hlast, hlast, List.getLast?_concat,
      List.dropLast_concat]

/-- The multiplexing of `ue_get_sdu`. -/
def ueMultiplex (R : UlRlc σ) (ue : UeUl σ) (g : UlGrant) : Except UlFailure (UlMux σ) :=
  multiplex R ue.usimTest g.buflen (ue.phrLen g.buflen)
    (List.range' dcch (maxNumLcid - dcch)) (ue.start g.buflen)

/-- Every block that `ue_get_sdu` produces fits its grant and is parsed by the eNB
into the PDUs of RLC exactly when the RLC PDUs fit the arrays and the
counted header is the one that is written. -/
theorem ueGetSdu_faithful_iff (R : UlRlc σ) (ue : UeUl σ) (g : UlGrant) (buf fill : ℕ → ℕ) :
    (ueGetSdu R ue g buf fill ≠ .error .overrun ∧
      ∀ pdu ue', ueGetSdu R ue g buf fill = .ok (pdu, ue') → pdu.Faithful g.buflen) ↔
    (ue.bsrTriggers &&& bsrTriggerPadding = 0 →
      ueMultiplex R ue g ≠ .error .overrun ∧
      ∀ m, ueMultiplex R ue g = .ok m → (m.padBsr g.buflen (ue.phrLen g.buflen)).LayoutAgrees
        g.buflen (ue.phrLen g.buflen)) := by
  by_cases htrigger : ue.bsrTriggers &&& bsrTriggerPadding = 0
  · have hrun : ueGetSdu R ue g buf fill = (ueMultiplex R ue g).map
        (fun m ↦ ue.assemble m g.buflen buf fill) := by
      rw [ueGetSdu, if_neg (not_not.mpr htrigger), ueMultiplex]
      split <;> simp [*, Except.map]
    rw [hrun]
    simp only [htrigger, forall_const]
    cases hmux : ueMultiplex R ue g with
    | error e => simp [Except.map]
    | ok m =>
      have hfits : m.Fits g.buflen (ue.phrLen g.buflen) :=
        multiplex_fits (by decide) (ue.start_fits g.buflen) hmux
      have hiff := UeUl.assemble_faithful_iff hfits g.buflen_le buf fill
      simp only [Except.map, ne_eq, reduceCtorEq, not_false_eq_true, true_and, Except.ok.injEq,
        forall_eq', ← hiff]
      exact ⟨fun h ↦ h _ _ rfl, fun h pdu ue' hpdu ↦ by rwa [hpdu] at h⟩
  · simp [ueGetSdu, htrigger]

end

/-- RLC in transparent mode hands over as many bytes as fit. -/
def byteRlc : UlRlc (ℕ → ℕ) where
  occupancy bytes := bytes
  dataReq bytes lcid n :=
    (List.replicate (min n (bytes lcid)) 7, update bytes lcid (bytes lcid - min n (bytes lcid)))

/-- A UE with `n` bytes on DTCH, in group 1, and no triggers. -/
def dtchUe (n : ℕ) : UeUl (ℕ → ℕ) where
  rlc := update (fun _ ↦ 0) dtch n
  info := {
    bsrBytes := update (fun _ ↦ 0) 1 n
    lcidBufferRemain := update (fun _ ↦ 0) dtch n
    lcidNotEmpty := fun lcid ↦ lcid == dtch
    lcgid := fun _ ↦ 1 }
  bsrReportingActive := 0
  periodicBsrExpired := false
  phrReportingActive := false
  phrMapping := 0
  bsrIndex := fun _ ↦ 0
  priority := fun _ ↦ none
  usimTest := false

/-- After a padding report three bytes are left behind a PDU of 129 bytes: the
eNB takes them for its end. -/
theorem not_ueGetSdu_faithful_three_bytes :
    ∃ pdu ue', ueGetSdu byteRlc (dtchUe 129) ⟨137, by decide⟩ (fun _ ↦ 0) (fun _ ↦ 0) =
        .ok (pdu, ue') ∧
      pdu.sdus.map (fun sdu ↦ sdu.2.length) = [129] ∧
      (parseUlschHeader pdu.buffer 137).map ParseState.lengths = .ok [132] ∧
      ¬ pdu.Faithful 137 := by
  have hrun : (ueGetSdu byteRlc (dtchUe 129) ⟨137, by decide⟩ (fun _ ↦ 0) (fun _ ↦ 0)).map
      (fun result ↦ (result.1.sdus.map (fun sdu ↦ sdu.2.length),
        (parseUlschHeader result.1.buffer 137).map ParseState.lengths)) =
      .ok ([129], .ok [132]) := by decide +kernel
  cases hok : ueGetSdu byteRlc (dtchUe 129) ⟨137, by decide⟩ (fun _ ↦ 0) (fun _ ↦ 0) with
  | error e => simp [hok, Except.map] at hrun
  | ok result =>
    rw [hok] at hrun
    obtain ⟨hsent, hparsed⟩ := Prod.mk.inj (Except.ok.inj hrun)
    refine ⟨result.1, result.2, rfl, hsent, hparsed, fun h ↦ ?_⟩
    obtain ⟨s, hs, -, hlengths⟩ := h.parsed
    rw [hs, Except.map, hlengths, hsent] at hparsed
    simp at hparsed

end EdgeSlice.Mac
