import EdgeSlice.Rlc.UmSegmenters

namespace EdgeSlice.Rlc

open Segmentation

namespace UmEntity

variable {s : UmEntity} {f : Frame UInt8} {sdu : TxSdu} {sdus sdus' : List TxSdu} {reduced : ℕ}

/-- The sizes of the SDUs that end in a PDU before its last segment. -/
def endedSizes (s : UmEntity) (pdu : TxPdu) : List ℕ :=
  (s.inputSdus.take (pdu.numFillSdu - 1)).map (·.sduRemainingSize)

/-- The length indicators are within their field and their number is within the array of the
receiver, which reads them and the size of the last segment. -/
structure Decodable (s : UmEntity) (headerSize : ℕ) (pdu : TxPdu) (last : ℕ) : Prop where
  li_lt : ∀ li ∈ s.endedSizes pdu, li < 2048
  num_le : (s.endedSizes pdu).length ≤ rlcUmSegmentNbMaxLiPerPdu
  reads : s.endedSizes pdu ≠ [] →
    readLengthIndicators (pdu.data.drop headerSize) (pdu.data.length - headerSize) =
      some (s.endedSizes pdu, last)

/-- The SDUs that the grant has a place for, with a length indicator and more data behind it, are
smaller than a length indicator can say and not more than the receiver has places for. -/
def FitsLis (s : UmEntity) : Prop :=
  ∀ k sdu, s.EndsWithLi k → s.inputSdus[k]? = some sdu →
    k < rlcUmSegmentNbMaxLiPerPdu ∧ sdu.sduRemainingSize < 2048

/-- The size of the segment behind the SDUs that end. -/
def lastSize (s s' : UmEntity) (pdu : TxPdu) : ℕ :=
  s.bufferOccupancy - s'.bufferOccupancy - (s.endedSizes pdu).sum

namespace Found

theorem endedSizes (h : s.Found reduced f sdus') (data : Bytes) :
    s.endedSizes ⟨data, f.complete.length + 1⟩ = f.complete.map List.length := h.packs.complete_sizes.symm

theorem fitsLis_iff (hs : s.Consistent) (h : s.Found reduced f sdus') :
    s.FitsLis ↔ (∀ li ∈ f.complete.map List.length, li < 2048) ∧
      f.complete.length ≤ rlcUmSegmentNbMaxLiPerPdu := by
  obtain ⟨hlength, -⟩ := h.packs.sizeTo_payload
  rw [h.packs.complete_sizes]
  constructor
  · intro hfits
    constructor
    · intro li hli
      obtain ⟨sdu, hsdu, rfl⟩ := List.mem_map.mp hli
      obtain ⟨k, hk, hget⟩ := List.mem_take_iff_getElem.mp hsdu
      have hk' : k < f.complete.length := Nat.lt_of_lt_of_le hk (Nat.min_le_left _ _)
      have hsome : s.inputSdus[k]? = some sdu := List.getElem?_eq_some_iff.mpr ⟨by omega, hget⟩
      exact (hfits k sdu ((h.endsWithLi_iff hs).mpr hk') hsome).2
    · by_contra hmany
      have hlt : rlcUmSegmentNbMaxLiPerPdu < s.inputSdus.length := by omega
      have hends : s.EndsWithLi rlcUmSegmentNbMaxLiPerPdu := (h.endsWithLi_iff hs).mpr (by omega)
      exact absurd (hfits _ _ hends (List.getElem?_eq_getElem hlt)).1 (Nat.lt_irrefl _)
  · rintro ⟨hli, hnum⟩ k sdu hk hsdu
    have hk' := (h.endsWithLi_iff hs).mp hk
    obtain ⟨hlt, hget⟩ := List.getElem?_eq_some_iff.mp hsdu
    have hmem : sdu ∈ s.inputSdus.take f.complete.length :=
      List.mem_take_iff_getElem.mpr ⟨k, Nat.lt_min.mpr ⟨hk', hlt⟩, hget⟩
    exact ⟨Nat.lt_of_lt_of_le hk' hnum, hli _ (List.mem_map_of_mem hmem)⟩

/-- What the receiver reads from a PDU that has `spare` behind the frame. -/
theorem decodable_iff (hs : s.Consistent) (h : s.Found reduced f sdus') (header spare : Bytes)
    (last : ℕ) :
    s.Decodable header.length
        ⟨header ++ (encodeLis (f.complete.map List.length) ++ f.payload) ++ spare,
          f.complete.length + 1⟩ last ↔
      s.FitsLis ∧ (f.complete ≠ [] → last = f.last.length + spare.length) := by
  have hended := h.endedSizes (header ++ (encodeLis (f.complete.map List.length) ++ f.payload) ++ spare)
  have hfits := h.fitsLis_iff hs
  have hne : f.complete.map List.length ≠ [] ↔ f.complete ≠ [] := List.map_eq_nil_iff.not
  have hreads (hli : ∀ li ∈ f.complete.map List.length, li < 2048)
      (hnum : f.complete.length ≤ rlcUmSegmentNbMaxLiPerPdu) (hcomplete : f.complete ≠ []) :
      readLengthIndicators
          ((header ++ (encodeLis (f.complete.map List.length) ++ f.payload) ++ spare).drop header.length)
          ((header ++ (encodeLis (f.complete.map List.length) ++ f.payload) ++ spare).length -
            header.length) =
        some (f.complete.map List.length, f.last.length + spare.length) := by
    have hlast := h.packs.last_pos
    have hread := readLengthIndicators_encodeLis (f.payload ++ spare) (hne.mpr hcomplete) hli
      (by rwa [List.length_map]) (n := f.last.length + spare.length) (by omega)
    have hlen : (header ++ (encodeLis (f.complete.map List.length) ++ f.payload) ++ spare).length -
        header.length = lisSize (f.complete.map List.length).length +
          (f.complete.map List.length).sum + (f.last.length + spare.length) := by
      rw [List.length_append, List.length_append, List.length_append, encodeLis_length,
        Frame.payload_length]
      omega
    rw [hlen, List.append_assoc, List.drop_left, List.append_assoc, hread]
  constructor
  · rintro ⟨hli, hnum, hread⟩
    rw [hended] at hli hnum hread
    rw [List.length_map] at hnum
    refine ⟨hfits.mpr ⟨hli, hnum⟩, fun hcomplete ↦ ?_⟩
    have heq := (hreads hli hnum hcomplete).symm.trans (hread (hne.mpr hcomplete))
    exact (congrArg Prod.snd (Option.some.inj heq)).symm
  · rintro ⟨hfit, hlast⟩
    obtain ⟨hli, hnum⟩ := hfits.mp hfit
    refine ⟨?_, ?_, ?_⟩
    · rwa [hended]
    · rwa [hended, List.length_map]
    · rw [hended]
      intro hcomplete
      rw [hlast (hne.mp hcomplete)]
      exact hreads hli hnum (hne.mp hcomplete)

theorem lastSize (hs : s.Consistent) (h : s.Found reduced f sdus') (data : Bytes) (s' : UmEntity)
    (hs' : s'.bufferOccupancy = s.bufferOccupancy - f.payload.length) :
    s.lastSize s' ⟨data, f.complete.length + 1⟩ = f.last.length := by
  have hpayload := h.packs.payload_length
  have hsizes := f.payload_length
  rw [← hs.bufferOccupancy] at hpayload
  rw [UmEntity.lastSize, h.endedSizes, hs']
  omega

end Found

theorem mem_some {p : TxPdu → Prop} {pdu : TxPdu} : (∀ pdu' ∈ some pdu, p pdu') ↔ p pdu :=
  ⟨fun h ↦ h pdu rfl, fun h _ hpdu' ↦ Option.some.inj hpdu' ▸ h⟩

theorem fitsLis_idle (h : s.inputSdus = []) : s.FitsLis := by
  intro k sdu _ hsdu
  rw [h] at hsdu
  exact absurd hsdu (by simp)

/-- The receiver reads the length indicators of all PDUs exactly where the SDUs that a grant has a
place for are smaller than 2048 bytes and not more than 128. The last segment of a PDU with a
sequence number of ten bits has its own size where the grant leaves no bytes besides. -/
theorem decodable_iff_fitsLis (block block10 : ℕ → UInt8) (h : s.Consistent)
    (hnb : 2 ≤ s.nbBytesRequestedByMac) :
    ((∀ pdu ∈ (s.segment5 block).2, s.Decodable 1 pdu (s.lastSize (s.segment5 block).1 pdu)) ↔
      s.FitsLis) ∧
    ((∀ pdu ∈ (s.sn10.segment10 block10).2, ∃ last, s.Decodable 2 pdu last) ↔ s.FitsLis) ∧
    ((∀ pdu ∈ (s.sn10.segment10 block10).2,
        s.Decodable 2 pdu (s.lastSize (s.sn10.segment10 block10).1 pdu)) ↔
      s.FitsLis ∧ ∀ k, 0 < k → ¬s.LeavesBytes k) := by
  cases hsdus : s.inputSdus with
  | nil =>
    have hsdus10 : s.sn10.inputSdus = [] := hsdus
    have hfits := fitsLis_idle hsdus
    have hno : ∀ k, 0 < k → ¬s.LeavesBytes k := by
      intro k _ hk
      have hlt := hk.1
      rw [hsdus] at hlt
      exact absurd hlt (Nat.not_lt_zero _)
    rw [segment5_idle block hsdus, segment10_idle block10 hsdus10]
    exact ⟨iff_of_true (fun _ hmem ↦ absurd hmem (by simp)) hfits,
      iff_of_true (fun _ hmem ↦ absurd hmem (by simp)) hfits,
      iff_of_true (fun _ hmem ↦ absurd hmem (by simp)) ⟨hfits, hno⟩⟩
  | cons sdu sdus =>
    obtain ⟨reduced, f, sdus', hfound⟩ := h.found hnb (by rw [hsdus]; exact List.cons_ne_nil _ _)
    obtain ⟨spare, hspare, hsegment10⟩ := hfound.segment10 block10 hnb hsdus
    let fi := framingInfo (sdu.sduRemainingSize = sdu.sduSize) f.ends
    have hiff := hfound.decodable_iff h [pduB1 fi (f.complete.length > 0) s.vtUs] []
    have hiff10 := hfound.decodable_iff h
      [pdu10B1 fi (f.complete.length > 0) s.vtUs, pdu10B2 s.vtUs] spare
    rw [hfound.segment5 block hnb hsdus, hsegment10]
    simp only [mem_some]
    refine ⟨?_, ?_, ?_⟩
    · have hlast := hfound.lastSize h (encodePdu s.vtUs (sdu.sduRemainingSize = sdu.sduSize) f)
        { s with
          inputSdus := sdus'
          bufferOccupancy := s.bufferOccupancy - f.payload.length
          vtUs := s.vtUs + 1 } rfl
      have hread := hiff f.last.length
      rw [List.append_nil] at hread
      rw [hlast]
      exact hread.trans ⟨And.left, fun hfits ↦ ⟨hfits, fun _ ↦ rfl⟩⟩
    · constructor
      · rintro ⟨last, hread⟩
        exact ((hiff10 last).mp hread).1
      · intro hfits
        exact ⟨_, (hiff10 _).mpr ⟨hfits, fun _ ↦ rfl⟩⟩
    · have hlast := hfound.lastSize h
        (encodePdu10 s.vtUs (sdu.sduRemainingSize = sdu.sduSize) f ++ spare)
        { s.sn10 with
          inputSdus := sdus'
          bufferOccupancy := s.bufferOccupancy - f.payload.length
          vtUs := s.vtUs + 1 } rfl
      rw [hlast]
      refine (hiff10 f.last.length).trans (and_congr_right fun _ ↦ ?_)
      simp only [hfound.leavesBytes_iff h, ← List.length_pos_iff]
      constructor
      · rintro hzero k hk ⟨hreduced, rfl⟩
        have hnone := hzero hk
        omega
      · intro hno hcomplete
        have hnone := hno _ hcomplete
        have hreduced : ¬0 < reduced := fun hpos ↦ hnone ⟨hpos, rfl⟩
        omega

/-- A sender with 130 SDUs of three bytes and a grant for all of them. -/
def manySdus : UmEntity :=
  { configured true with
    inputSdus := List.replicate 130 (.ofData [0x80, 0x00, 0x2A])
    bufferOccupancy := 390
    nbBytesRequestedByMac := 600 }

theorem manySdus_consistent : manySdus.Consistent where
  txHeaderMinLengthInBytes := rfl
  bufferOccupancy := by
    rw [manySdus, List.map_replicate, List.sum_replicate]
    rfl
  remaining_pos := by
    intro sdu hsdu
    rw [List.eq_of_mem_replicate hsdu]
    exact Nat.zero_lt_succ _

theorem manySdus_undecodable : manySdus.Consistent ∧
    ¬∀ pdu ∈ (manySdus.segment5 fun _ ↦ 0).2,
      manySdus.Decodable 1 pdu (manySdus.lastSize (manySdus.segment5 fun _ ↦ 0).1 pdu) := by
  refine ⟨manySdus_consistent, fun hall ↦ ?_⟩
  obtain ⟨reduced, f, sdus', hfound⟩ := manySdus_consistent.found (by decide) (by decide)
  have hqueue : manySdus.inputSdus = .ofData [0x80, 0x00, 0x2A] :: List.replicate 129 _ := rfl
  have hsegment := hfound.segment5 (fun _ ↦ 0) (by decide) hqueue
  rw [hsegment, mem_some] at hall
  have hnum := hall.num_le
  rw [hfound.endedSizes, List.length_map] at hnum
  have hends : manySdus.EndsWithLi 128 := by
    refine ⟨?_, ?_⟩
    · rw [manySdus, List.length_replicate]
      decide
    · rw [sizeTo, manySdus, List.take_replicate, List.map_replicate, List.sum_replicate]
      decide
  have hmany := (hfound.endsWithLi_iff manySdus_consistent).mp hends
  exact absurd (hmany.trans_le hnum) (by decide)

/-- A grant with a place for both SDUs and a length indicator. -/
def twoSdusTwenty : UmEntity := { twoSdus with nbBytesRequestedByMac := 20 }

theorem twoSdusTwenty_decodable : twoSdusTwenty.FitsLis ∧ ∀ pdu ∈ (twoSdusTwenty.segment5 fun _ ↦ 0).2,
    twoSdusTwenty.Decodable 1 pdu
      (twoSdusTwenty.lastSize (twoSdusTwenty.segment5 fun _ ↦ 0).1 pdu) := by
  have hfits : twoSdusTwenty.FitsLis := by
    rintro k sdu ⟨hk, -⟩ hsdu
    have hlength : twoSdusTwenty.inputSdus.length = 2 := rfl
    obtain rfl : k = 0 := by omega
    obtain rfl : TxSdu.ofData [1, 2, 3] = sdu := Option.some.inj hsdu
    exact ⟨by decide, by decide⟩
  exact ⟨hfits, (decodable_iff_fitsLis _ (fun _ ↦ 0) ⟨rfl, rfl, by decide⟩ (by decide)).1.mpr hfits⟩

end UmEntity

end EdgeSlice.Rlc
