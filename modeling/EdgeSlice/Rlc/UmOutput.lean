import EdgeSlice.Rlc.UmPdu

namespace EdgeSlice.Rlc

open BitField Segmentation

namespace UmEntity

variable {r r' r'' : UmEntity} {output output' segment : Bytes} {delivered delivered' : List Bytes}

/-- The bytes of the SDU in construction. -/
def Holds (r : UmEntity) (output : Bytes) : Prop :=
  r.outputSduInConstruction = none ∧ output = [] ∨
    ∃ tail, r.outputSduInConstruction = some (output ++ tail) ∧ r.outputSduSizeToWrite = output.length

/-- SDUs are handed up, and the SDU in construction is another one. -/
def Delivers (r : UmEntity) (delivered : List Bytes) (output : Bytes) (r' : UmEntity) : Prop :=
  r'.Holds output ∧ ∃ block size, r' =
    { r with
      outputSduInConstruction := block
      outputSduSizeToWrite := size
      dataInd := r.dataInd ++ delivered }

theorem Holds.delivers (h : r.Holds output) : r.Delivers [] output r :=
  ⟨h, _, _, by rw [List.append_nil]⟩

theorem Delivers.trans (h : r.Delivers delivered output r') (h' : r'.Delivers delivered' output' r'') :
    r.Delivers (delivered ++ delivered') output' r'' := by
  obtain ⟨-, block, size, rfl⟩ := h
  obtain ⟨hholds, block', size', rfl⟩ := h'
  exact ⟨hholds, block', size', by rw [List.append_assoc]⟩

theorem Delivers.sduMaxSize (h : r.Delivers delivered output r') : r'.sduMaxSize = r.sduMaxSize := by
  obtain ⟨-, block, size, rfl⟩ := h
  rfl

theorem Holds.clear (h : r.Holds output) : r.Delivers [] [] r.clearRxSdu := by
  refine ⟨?_, r.outputSduInConstruction, 0, ?_⟩
  · rcases h with ⟨hnone, -⟩ | ⟨tail, hsome, -⟩
    · exact Or.inl ⟨hnone, rfl⟩
    · exact Or.inr ⟨output ++ tail, hsome, rfl⟩
  · rw [List.append_nil]
    rfl

theorem Holds.reassembly (h : r.Holds output) (rest : Bytes) (hne : segment ≠ [])
    (hsize : output.length + segment.length ≤ r.sduMaxSize) :
    r.Delivers [] (output ++ segment) (r.reassembly (segment ++ rest) segment.length) := by
  have hlen : segment.length ≠ 0 := fun hzero ↦ hne (List.length_eq_zero_iff.mp hzero)
  rw [UmEntity.reassembly, if_neg hlen]
  rcases h with ⟨hnone, rfl⟩ | ⟨tail, hsome, hwritten⟩
  · rw [hnone]
    simp only
    rw [if_pos (by rwa [List.length_nil] at hsize)]
    refine ⟨Or.inr ⟨[], ?_, ?_⟩, _, _, by rw [List.append_nil]⟩
    · simp
    · simp
  · rw [hsome, hwritten]
    simp only
    rw [if_pos hsize]
    refine ⟨Or.inr ⟨tail.drop segment.length, ?_, ?_⟩, _, _, by rw [List.append_nil]⟩
    · simp
    · simp

theorem Holds.sendSdu (h : r.Holds output) (hne : output ≠ []) : r.Delivers [output] [] r.sendSdu := by
  rcases h with ⟨-, hnil⟩ | ⟨tail, hsome, hwritten⟩
  · exact absurd hnil hne
  · have hpos : r.outputSduSizeToWrite > 0 := by
      rw [hwritten]
      exact List.length_pos_iff.mpr hne
    rw [UmEntity.sendSdu, hsome]
    simp only
    rw [if_pos hpos]
    refine ⟨Or.inl ⟨rfl, rfl⟩, none, 0, ?_⟩
    rw [hwritten, List.take_left]

/-- The segments that end at a length indicator complete their SDUs. -/
theorem reassembleSdus_delivers {segments : List Bytes} (rest : Bytes) (h : r.Holds output)
    (hne : ∀ segment ∈ segments, segment ≠ [])
    (hsize : ∀ message ∈ (messages output segments).1, message.length ≤ r.sduMaxSize) :
    (reassembleSdus (segments.map List.length) (segments.flatten ++ rest) r).2 = rest ∧
    r.Delivers (messages output segments).1 (messages output segments).2
      (reassembleSdus (segments.map List.length) (segments.flatten ++ rest) r).1 := by
  induction segments generalizing r output with
  | nil => exact ⟨rfl, h.delivers⟩
  | cons segment segments ih =>
    obtain ⟨hsegment, hsegments⟩ := List.forall_mem_cons.mp hne
    obtain ⟨hfirst, hothers⟩ := List.forall_mem_cons.mp hsize
    rw [List.length_append] at hfirst
    rw [List.map_cons, List.flatten_cons, List.append_assoc, reassembleSdus, List.drop_left]
    have hadded := h.reassembly (segments.flatten ++ rest) hsegment hfirst
    have hsent := hadded.trans (hadded.1.sendSdu (List.append_ne_nil_of_right_ne_nil _ hsegment))
    rw [← hsent.sduMaxSize] at hothers
    obtain ⟨hrest, hdelivers⟩ := ih hsent.1 hsegments hothers
    exact ⟨hrest, hsent.trans hdelivers⟩

end UmEntity

end EdgeSlice.Rlc

namespace EdgeSlice.Rlc

open BitField Segmentation

namespace UmEntity

theorem framingInfo_toNat (fiFirst fiLast : Bool) :
    (framingInfo fiFirst fiLast).toNat = (!fiFirst).toNat * 2 + (!fiLast).toNat := by
  cases fiFirst with
  | true =>
    cases fiLast with
    | true => rfl
    | false => rfl
  | false =>
    cases fiLast with
    | true => rfl
    | false => rfl

theorem framingInfo_lt (fiFirst fiLast : Bool) : (framingInfo fiFirst fiLast).toNat < 4 := by
  have hfirst := Bool.toNat_le (!fiFirst)
  have hlast := Bool.toNat_le (!fiLast)
  rw [framingInfo_toNat]
  omega

theorem pduB1_toNat {fi : UInt8} (hfi : fi.toNat < 4) (li : Bool) (vtUs : UInt16) :
    (pduB1 fi li vtUs).toNat = fi.toNat * 64 + li.toNat * 32 + vtUs.toNat % 32 := by
  have hlow : (vtUs &&& 0x1F).toUInt8.toNat = vtUs.toNat % 32 := by
    have hmask : vtUs.toNat &&& 0x1F = vtUs.toNat % 2 ^ 5 := Nat.and_two_pow_sub_one_eq_mod _ 5
    rw [UInt16.toNat_toUInt8, UInt16.toNat_and]
    change (vtUs.toNat &&& 0x1F) % 2 ^ 8 = _
    omega
  have hli := Bool.toNat_le li
  have hhigh : fi <<< 6 ||| (if li then 0x20 else 0) = UInt8.ofNat ((fi.toNat * 2 + li.toNat) * 2 ^ 5) := by
    have hshift : fi <<< 6 = UInt8.ofNat (fi.toNat * 2 ^ 6) := by
      apply UInt8.toNat_inj.mp
      rw [ofNat_toNat (by omega), UInt8.toNat_shiftLeft, Nat.shiftLeft_eq]
      change fi.toNat * 2 ^ 6 % 2 ^ 8 = _
      omega
    have hflag : (if li then (0x20 : UInt8) else 0).toNat = li.toNat * 32 := by
      cases li with
      | true => rfl
      | false => rfl
    apply UInt8.toNat_inj.mp
    rw [hshift, join_toNat (by omega) (by omega), hflag, ofNat_toNat (by omega)]
    omega
  rw [pduB1, hhigh, join_toNat (by omega) (by omega), hlow]
  omega

theorem header_pduB1 {fi : UInt8} (hfi : fi.toNat < 4) (li : Bool) (vtUs : UInt16) (body : Bytes)
    {r : UmEntity} (hlength : r.rxSnLength = 5) :
    r.header (pduB1 fi li vtUs :: body) = (UInt8.ofNat li.toNat, fi, 1) := by
  have hb1 := pduB1_toNat hfi li vtUs
  have hli := Bool.toNat_le li
  have he : ((pduB1 fi li vtUs &&& 0x20) >>> 5).toNat = (pduB1 fi li vtUs).toNat / 32 % 2 :=
    field_toNat _ (k := 5) (w := 1) (by decide) (by decide)
  have hfield : ((pduB1 fi li vtUs &&& 0xC0) >>> 6).toNat = (pduB1 fi li vtUs).toNat / 64 % 4 :=
    field_toNat _ (k := 6) (w := 2) (by decide) (by decide)
  rw [header, if_neg (by omega), List.getD_cons_zero]
  refine Prod.ext ?_ (Prod.ext ?_ rfl)
  · apply UInt8.toNat_inj.mp
    rw [he, hb1, ofNat_toNat (by omega)]
    omega
  · apply UInt8.toNat_inj.mp
    change _ = fi.toNat
    rw [hfield, hb1]
    omega

/-- The SDU in construction where a PDU begins. -/
def beginPdu (fiFirst : Bool) (r : UmEntity) : UmEntity := if fiFirst then r.clearRxSdu else r

/-- The last segment of a PDU. -/
def finishPdu (ends : Bool) (data : Bytes) (size : ℕ) (r : UmEntity) : UmEntity :=
  if ends then (r.reassembly data size).sendSdu else r.reassembly data size

variable {r r' : UmEntity} {output : Bytes} {delivered : List Bytes} {f : Frame UInt8}

theorem setMissing_false (h : r.reassemblyMissingSnDetected = false) : r.setMissing false = r := by
  rw [setMissing, ← h]

theorem Delivers.setMissing (h : r.Delivers delivered output r') (detected : Bool) :
    (r.setMissing detected).Delivers delivered output (r'.setMissing detected) := by
  obtain ⟨hholds, block, size, rfl⟩ := h
  exact ⟨hholds, block, size, rfl⟩

theorem Holds.beginPdu (h : r.Holds output) (fiFirst : Bool) :
    r.Delivers [] (if fiFirst then [] else output) (r.beginPdu fiFirst) := by
  cases fiFirst with
  | true => exact h.clear
  | false => exact h.delivers

theorem Holds.finishPdu {last : Bytes} (h : r.Holds output) (ends : Bool) (hne : last ≠ [])
    (hsize : (output ++ last).length ≤ r.sduMaxSize) :
    r.Delivers (if ends then [output ++ last] else []) (if ends then [] else output ++ last)
      (r.finishPdu ends last last.length) := by
  rw [List.length_append] at hsize
  have hadded := h.reassembly [] hne hsize
  rw [List.append_nil] at hadded
  cases ends with
  | true => exact hadded.trans (hadded.1.sendSdu (List.append_ne_nil_of_right_ne_nil _ hne))
  | false => exact hadded

theorem reassembly_missing (src : Bytes) (length : ℕ) (r : UmEntity) :
    (r.reassembly src length).reassemblyMissingSnDetected = r.reassemblyMissingSnDetected := by
  simp only [UmEntity.reassembly]
  split_ifs
  · rfl
  · rfl
  · rfl

/-- The branch for the data of a frame. -/
def reassembleFrame (fiFirst : Bool) (f : Frame UInt8) (r : UmEntity) : UmEntity :=
  if f.complete = [] then r.reassembleData (framingInfo fiFirst f.ends) f.last
  else r.reassembleLis (framingInfo fiFirst f.ends) (f.complete.map List.length) f.payload f.last.length

/-- The segments of a frame one behind the other. -/
def reassembleSegments (f : Frame UInt8) (r : UmEntity) : UmEntity :=
  (reassembleSdus (f.complete.map List.length) f.payload r).1.finishPdu f.ends
    (reassembleSdus (f.complete.map List.length) f.payload r).2 f.last.length

/-- All frames are reassembled in one way unless their first segment has to be left out. -/
theorem reassembleFrame_eq (fiFirst : Bool) (f : Frame UInt8)
    (hfirst : fiFirst = true ∨ r.reassemblyMissingSnDetected = false) :
    r.reassembleFrame fiFirst f = ((r.beginPdu fiFirst).reassembleSegments f).setMissing false := by
  obtain ⟨complete, last, ends⟩ := f
  rw [reassembleFrame]
  by_cases hcomplete : complete = []
  · subst hcomplete
    rw [if_pos rfl]
    cases fiFirst with
    | true =>
      cases ends with
      | true => rfl
      | false => rfl
    | false =>
      have hmissing := hfirst.resolve_left Bool.false_ne_true
      have hadded := (reassembly_missing last last.length r).trans hmissing
      rw [reassembleData]
      cases ends with
      | true =>
        simp only [hmissing]
        rfl
      | false =>
        simp only [hmissing]
        exact (setMissing_false hadded).symm
  · rw [if_neg hcomplete]
    cases fiFirst with
    | true =>
      cases ends with
      | true => rfl
      | false => rfl
    | false =>
      have hskip (lis : List ℕ) (data : Bytes) : r.skipFirst lis data = (lis, data) := by
        rw [skipFirst, hfirst.resolve_left Bool.false_ne_true]
        rfl
      rw [reassembleLis, hskip]
      cases ends with
      | true => rfl
      | false => rfl

/-- What the segments of a frame that the sender built complete is handed up. -/
theorem Holds.reassembleSegments (h : r.Holds output) (hlast : 0 < f.last.length)
    (hsegments : ∀ segment ∈ f.complete, segment ≠ [])
    (hsizes : ∀ message ∈ (messages output f.complete).1, message.length ≤ r.sduMaxSize)
    (hsize : ((messages output f.complete).2 ++ f.last).length ≤ r.sduMaxSize) :
    r.Delivers (reassemble output f).1 (reassemble output f).2 (r.reassembleSegments f) := by
  obtain ⟨hrest, hsdus⟩ := reassembleSdus_delivers f.last h hsegments hsizes
  rw [← hsdus.sduMaxSize] at hsize
  have hall := hsdus.trans (hsdus.1.finishPdu f.ends (List.length_pos_iff.mp hlast) hsize)
  rw [UmEntity.reassembleSegments, Frame.payload, hrest]
  cases hends : f.ends with
  | true => simpa [reassemble, hends] using hall
  | false => simpa [reassemble, hends] using hall

/-- A frame with which the entity can go on. -/
theorem Holds.reassembleFrame (h : r.Holds output) {fiFirst : Bool}
    (hmissing : fiFirst = true ∨ r.reassemblyMissingSnDetected = false) (hfirst : fiFirst = true → output = [])
    (hlast : 0 < f.last.length) (hsegments : ∀ segment ∈ f.complete, segment ≠ [])
    (hsizes : ∀ message ∈ (messages output f.complete).1, message.length ≤ r.sduMaxSize)
    (hsize : ((messages output f.complete).2 ++ f.last).length ≤ r.sduMaxSize) :
    (r.setMissing false).Delivers (reassemble output f).1 (reassemble output f).2 (r.reassembleFrame fiFirst f) := by
  have hbegin : r.Delivers [] output (r.beginPdu fiFirst) := by
    have hdelivers := h.beginPdu fiFirst
    cases fiFirst with
    | true =>
      rw [hfirst rfl] at hdelivers ⊢
      exact hdelivers
    | false => exact hdelivers
  rw [← hbegin.sduMaxSize] at hsizes hsize
  rw [reassembleFrame_eq fiFirst f hmissing]
  exact (hbegin.trans (hbegin.1.reassembleSegments hlast hsegments hsizes hsize)).setMissing false

/-- The PDU has the frame in it, as the entity reads it. -/
structure ReadsAs (r : UmEntity) (pdu : Bytes) (fiFirst : Bool) (f : Frame UInt8) (size : ℕ) : Prop where
  header : r.header pdu =
    (UInt8.ofNat (decide (f.complete.length > 0)).toNat, framingInfo fiFirst f.ends, size)
  body : pdu.drop size = encodeLis (f.complete.map List.length) ++ f.payload

theorem readsAs_encodePdu (hlength : r.rxSnLength = 5) (vtUs : UInt16) (fiFirst : Bool) (f : Frame UInt8) :
    r.ReadsAs (encodePdu vtUs fiFirst f) fiFirst f 1 :=
  ⟨header_pduB1 (framingInfo_lt fiFirst f.ends) _ vtUs _ hlength, rfl⟩

theorem ReadsAs.reassemblePdu {pdu : Bytes} {fiFirst : Bool} {size : ℕ} (h : r.ReadsAs pdu fiFirst f size)
    (hlast : 0 < f.last.length) (hlis : ∀ segment ∈ f.complete, segment.length < 2048)
    (hmax : f.complete.length ≤ rlcUmSegmentNbMaxLiPerPdu) :
    r.reassemblePdu pdu = r.reassembleFrame fiFirst f := by
  rw [UmEntity.reassemblePdu, UmEntity.reassembleFrame, h.header]
  dsimp only
  rw [h.body]
  by_cases hcomplete : f.complete = []
  · have hpayload : f.payload = f.last := by
      rw [Frame.payload, hcomplete]
      rfl
    rw [hcomplete, hpayload, if_pos rfl]
    rfl
  · have hpos : f.complete.length > 0 := List.length_pos_iff.mpr hcomplete
    have hlis' : ∀ li ∈ f.complete.map List.length, li < 2048 := by
      intro li hli
      obtain ⟨segment, hsegment, rfl⟩ := List.mem_map.mp hli
      exact hlis segment hsegment
    have hsize : (encodeLis (f.complete.map List.length) ++ f.payload).length =
        lisSize (f.complete.map List.length).length + (f.complete.map List.length).sum + f.last.length := by
      rw [List.length_append, encodeLis_length, Frame.payload_length, Nat.add_assoc]
    have hread := readLengthIndicators_encodeLis f.payload
      (fun hnil ↦ hcomplete (List.map_eq_nil_iff.mp hnil)) hlis' (by rwa [List.length_map]) hlast
    rw [← hsize] at hread
    have hdrop : (encodeLis (f.complete.map List.length) ++ f.payload).drop
        (((f.complete.map List.length).length * 3 + 1) >>> 1) = f.payload := by
      have hlen := encodeLis_length (f.complete.map List.length)
      rw [lisSize] at hlen
      rw [← hlen, List.drop_left]
    have he : ¬UInt8.ofNat (decide (f.complete.length > 0)).toNat = 0 := by
      rw [decide_eq_true hpos]
      decide
    rw [if_neg he, hread, if_neg hcomplete]
    dsimp only
    rw [hdrop]

/-- A PDU with a frame that the sender built hands up the SDUs that end in it. -/
theorem Holds.reassemblePdu (h : r.Holds output) (hlength : r.rxSnLength = 5)
    (hmissing : r.reassemblyMissingSnDetected = false) (fiFirst : Bool) (vtUs : UInt16)
    (hfirst : fiFirst = true → output = []) (hlast : 0 < f.last.length)
    (hsegments : ∀ segment ∈ f.complete, segment ≠ [] ∧ segment.length < 2048)
    (hmax : f.complete.length ≤ rlcUmSegmentNbMaxLiPerPdu)
    (hsizes : ∀ message ∈ (messages output f.complete).1, message.length ≤ r.sduMaxSize)
    (hsize : ((messages output f.complete).2 ++ f.last).length ≤ r.sduMaxSize) :
    r.Delivers (reassemble output f).1 (reassemble output f).2
      (r.reassemblePdu (encodePdu vtUs fiFirst f)) := by
  have hframe := h.reassembleFrame (Or.inr hmissing) hfirst hlast (fun segment hsegment ↦ (hsegments segment hsegment).1)
    hsizes hsize
  rw [setMissing_false hmissing] at hframe
  rw [(readsAs_encodePdu hlength vtUs fiFirst f).reassemblePdu hlast
    (fun segment hsegment ↦ (hsegments segment hsegment).2) hmax]
  exact hframe

end UmEntity

end EdgeSlice.Rlc
