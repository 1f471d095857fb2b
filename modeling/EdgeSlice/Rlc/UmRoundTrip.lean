import EdgeSlice.Rlc.UmOutput
import EdgeSlice.Rlc.UmReassembly

namespace EdgeSlice.Rlc

namespace UmEntity

variable {r r' : UmEntity}

/-- No SDU that is handed up is larger than the entity allows. -/
structure Bounded (r : UmEntity) (max : ℕ) : Prop where
  sduMaxSize : r.sduMaxSize = max
  size_le : r.outputSduSizeToWrite ≤ max
  dataInd : ∀ sdu ∈ r.dataInd, sdu.length ≤ max

namespace Bounded

variable {max : ℕ}

theorem ite {p : Prop} [Decidable p] (h : r.Bounded max) (h' : r'.Bounded max) :
    (if p then r else r').Bounded max := by
  split_ifs
  · exact h
  · exact h'

theorem clearRxSdu (h : r.Bounded max) : r.clearRxSdu.Bounded max := ⟨h.1, Nat.zero_le _, h.3⟩

theorem setMissing (h : r.Bounded max) (detected : Bool) : (r.setMissing detected).Bounded max :=
  ⟨h.1, h.2, h.3⟩

theorem setDarBuffer (h : r.Bounded max) (darBuffer : ℕ → Option Bytes) :
    ({ r with darBuffer := darBuffer } : UmEntity).Bounded max := ⟨h.1, h.2, h.3⟩

theorem setLastReassembliedSn (h : r.Bounded max) (sn : ℕ) :
    ({ r with lastReassembliedSn := sn } : UmEntity).Bounded max := ⟨h.1, h.2, h.3⟩

theorem reassembly (h : r.Bounded max) (src : Bytes) (length : ℕ) :
    (r.reassembly src length).Bounded max := by
  have hmax := h.sduMaxSize
  simp only [UmEntity.reassembly]
  split_ifs with hzero hfits
  · exact h
  · rw [hmax] at hfits
    exact ⟨hmax, hfits, h.3⟩
  · exact ⟨hmax, Nat.zero_le _, h.3⟩

theorem sendSdu (h : r.Bounded max) : r.sendSdu.Bounded max := by
  rw [UmEntity.sendSdu]
  split
  · exact h
  · split_ifs with hpos
    · refine ⟨h.1, Nat.zero_le _, ?_⟩
      intro sdu hsdu
      rcases List.mem_append.mp hsdu with hsdu | hsdu
      · exact h.dataInd sdu hsdu
      · rw [List.mem_singleton.mp hsdu, List.length_take]
        exact Nat.le_trans (Nat.min_le_left _ _) h.size_le
    · exact ⟨h.1, Nat.zero_le _, h.3⟩

theorem reassembleSdus (h : r.Bounded max) (lis : List ℕ) (data : Bytes) :
    (reassembleSdus lis data r).1.Bounded max := by
  induction lis generalizing r data with
  | nil => exact h
  | cons li lis ih => exact ih (h.reassembly data li).sendSdu _

theorem reassembleData (h : r.Bounded max) (fi : UInt8) (data : Bytes) :
    (r.reassembleData fi data).Bounded max := by
  simp only [UmEntity.reassembleData]
  split_ifs
  · exact ((h.clearRxSdu.reassembly _ _).sendSdu).setMissing _
  · exact (h.clearRxSdu.reassembly _ _).setMissing _
  · exact h.setMissing _
  · exact ((h.reassembly _ _).sendSdu).setMissing _
  · exact h.setMissing _
  · exact h.reassembly _ _

theorem reassembleLis (h : r.Bounded max) (fi : UInt8) (lis : List ℕ) (data : Bytes) (size : ℕ) :
    (r.reassembleLis fi lis data size).Bounded max := by
  simp only [UmEntity.reassembleLis]
  split_ifs
  · exact (((h.clearRxSdu.reassembleSdus lis data).reassembly _ _).sendSdu).setMissing _
  · exact ((h.clearRxSdu.reassembleSdus lis data).reassembly _ _).setMissing _
  · exact (((h.reassembleSdus _ _).reassembly _ _).sendSdu).setMissing _
  · exact ((h.reassembleSdus _ _).reassembly _ _).setMissing _

theorem reassemblePdu (h : r.Bounded max) (pdu : Bytes) : (r.reassemblePdu pdu).Bounded max := by
  simp only [UmEntity.reassemblePdu]
  split_ifs
  · exact h.reassembleData _ _
  · split
    · exact h.setMissing _
    · exact h.reassembleLis _ _ _ _

theorem reassembleSn (h : r.Bounded max) (sn : ℕ) : (r.reassembleSn sn).Bounded max := by
  rw [UmEntity.reassembleSn]
  split
  · rename_i pdu _
    exact (((h.clearRxSdu.ite h).setLastReassembliedSn sn).reassemblePdu pdu).setDarBuffer _
  · exact (h.setMissing true).clearRxSdu

theorem tryReassemblyLoop (h : r.Bounded max) (endSn : ℤ) (fuel sn : ℕ) :
    (tryReassemblyLoop endSn fuel sn r).Bounded max := by
  induction fuel generalizing r sn with
  | zero => exact h
  | succ fuel ih =>
    simp only [UmEntity.tryReassemblyLoop]
    split_ifs
    · exact h.reassembleSn sn
    · exact ih (h.reassembleSn sn) _

/-- Whatever PDUs are in the buffer, no SDU is handed up that is larger than the entity allows. -/
theorem tryReassembly (h : r.Bounded max) (startSn endSn : ℤ) :
    (r.tryReassembly startSn endSn).Bounded max := by
  rw [UmEntity.tryReassembly]
  exact h.ite (h.tryReassemblyLoop _ _ _)

end Bounded

end UmEntity

end EdgeSlice.Rlc

namespace EdgeSlice.Rlc

open BitField Function Segmentation

namespace UmEntity

/-- `rlc_um_data_req`. -/
def dataReq (data : Bytes) (s : UmEntity) : UmEntity :=
  { s with
    inputSdus := s.inputSdus ++ [TxSdu.ofData data]
    bufferOccupancy := s.bufferOccupancy + data.length }

/-- An entity after `rlc_um_init` and `rlc_um_configure` with sequence numbers of five bits. -/
def configured (isDataPlane : Bool) : UmEntity where
  isDataPlane := isDataPlane
  vtUs := 0
  vrUh := 0
  rxSnLength := 5
  txHeaderMinLengthInBytes := 1
  rxSnModulo := 32
  inputSdus := []
  bufferOccupancy := 0
  nbBytesRequestedByMac := 0
  outputSduInConstruction := none
  outputSduSizeToWrite := 0
  darBuffer := fun _ ↦ none
  lastReassembliedSn := 31
  reassemblyMissingSnDetected := false
  dataInd := []

/-- MAC requests so many bytes; the memory block of the PDU holds `block`. -/
def grant (nbBytes : ℕ) (block : ℕ → UInt8) (s : UmEntity) : UmEntity × Option TxPdu :=
  { s with nbBytesRequestedByMac := nbBytes }.segment5 block

/-- The PDUs for a sequence of grants. -/
def segmentAll : List (ℕ × (ℕ → UInt8)) → UmEntity → UmEntity × List TxPdu
  | [], s => (s, [])
  | (nbBytes, block) :: grants, s =>
    ((segmentAll grants (s.grant nbBytes block).1).1,
      (s.grant nbBytes block).2.toList ++ (segmentAll grants (s.grant nbBytes block).1).2)

/-- A PDU is put into the buffer under its sequence number and reassembled. -/
def feed (pdu : Bytes) (r : UmEntity) : UmEntity :=
  let sn := (pdu.getD 0 0 &&& 0x1F).toNat
  { r with darBuffer := update r.darBuffer sn (some pdu) }.tryReassembly sn
    ((sn + 1) % r.rxSnModulo : ℕ)

def feedAll (pdus : List TxPdu) (r : UmEntity) : UmEntity :=
  pdus.foldl (fun r pdu ↦ r.feed pdu.data) r

/-- What the receiver holds is what is gone of the first SDU of the sender's queue. -/
structure Linked (s r : UmEntity) : Prop where
  consistent : s.Consistent
  rxSnLength : r.rxSnLength = 5
  rxSnModulo : r.rxSnModulo = 32
  notMissing : r.reassemblyMissingSnDetected = false
  nextSn : (r.lastReassembliedSn + 1) % 32 = s.vtUs.toNat % 32
  holds : ∃ output, r.Holds output ∧
    restore output (s.inputSdus.map (·.rest)) = s.inputSdus.map (·.data) ∧
    (s.inputSdus = [] → output = [])

variable {s r r' : UmEntity} {f : Frame UInt8} {sdu : TxSdu} {sdus sdus' : List TxSdu}
  {output : Bytes} {delivered : List Bytes}

theorem linked_configured (isDataPlane isDataPlane' : Bool) :
    Linked (configured isDataPlane) (configured isDataPlane') where
  consistent := ⟨rfl, rfl, fun _ hmem ↦ absurd hmem List.not_mem_nil⟩
  rxSnLength := rfl
  rxSnModulo := rfl
  notMissing := rfl
  nextSn := by simp [configured]
  holds := ⟨[], Or.inl ⟨rfl, rfl⟩, rfl, fun _ ↦ rfl⟩

theorem Consistent.dataReq (h : s.Consistent) {data : Bytes} (hne : data ≠ []) :
    (s.dataReq data).Consistent where
  txHeaderMinLengthInBytes := h.txHeaderMinLengthInBytes
  bufferOccupancy := by
    change s.bufferOccupancy + data.length =
      ((s.inputSdus ++ [TxSdu.ofData data]).map (·.sduRemainingSize)).sum
    rw [List.map_append, List.sum_append, ← h.bufferOccupancy]
    rfl
  remaining_pos := by
    intro sdu hsdu
    rcases List.mem_append.mp hsdu with hsdu | hsdu
    · exact h.remaining_pos sdu hsdu
    · rw [List.mem_singleton.mp hsdu]
      exact List.length_pos_iff.mpr hne

theorem restore_append (hrestore : restore output (sdus.map (·.rest)) = sdus.map (·.data))
    (hnil : sdus = [] → output = []) (data : Bytes) :
    restore output ((sdus ++ [TxSdu.ofData data]).map (·.rest)) =
      (sdus ++ [TxSdu.ofData data]).map (·.data) := by
  cases sdus with
  | nil =>
    rw [hnil rfl, restore_nil_left]
    rfl
  | cons sdu sdus =>
    rw [List.map_append, List.map_append, ← hrestore]
    rfl

theorem Linked.dataReq (h : Linked s r) {data : Bytes} (hne : data ≠ []) :
    Linked (s.dataReq data) r where
  consistent := h.consistent.dataReq hne
  rxSnLength := h.rxSnLength
  rxSnModulo := h.rxSnModulo
  notMissing := h.notMissing
  nextSn := h.nextSn
  holds := by
    obtain ⟨output, hholds, hrestore, hnil⟩ := h.holds
    refine ⟨output, hholds, restore_append hrestore hnil data, fun hempty ↦ ?_⟩
    exact absurd hempty (List.append_ne_nil_of_right_ne_nil _ (List.cons_ne_nil _ _))

theorem tryReassemblyLoop_next {sn : ℕ} (fuel : ℕ)
    (hkept : (r.reassembleSn sn).rxSnModulo = r.rxSnModulo) :
    tryReassemblyLoop ((sn + 1) % r.rxSnModulo : ℕ) (fuel + 1) sn r = r.reassembleSn sn := by
  simp only [tryReassemblyLoop, hkept]
  exact if_pos (Or.inr trivial)

theorem tryReassembly_next {sn : ℕ} (hsn : sn < r.rxSnModulo) (hmodulo : 1 < r.rxSnModulo)
    (hkept : (r.reassembleSn sn).rxSnModulo = r.rxSnModulo) :
    r.tryReassembly sn ((sn + 1) % r.rxSnModulo : ℕ) = r.reassembleSn sn := by
  have hne : ¬((sn : ℤ) = ((sn + 1) % r.rxSnModulo : ℕ)) := by
    intro heq
    have heq' : sn = (sn + 1) % r.rxSnModulo := Int.natCast_inj.mp heq
    rcases Nat.lt_or_ge (sn + 1) r.rxSnModulo with hlt | hge
    · rw [Nat.mod_eq_of_lt hlt] at heq'
      omega
    · have hlast : sn + 1 = r.rxSnModulo := by omega
      rw [hlast, Nat.mod_self] at heq'
      omega
  obtain ⟨fuel, hfuel⟩ := Nat.exists_eq_add_one.mpr (Nat.lt_trans Nat.zero_lt_one hmodulo)
  have hstart : ¬((sn : ℤ) < 0) := Int.not_lt.mpr (Int.natCast_nonneg sn)
  have hend : ¬((((sn + 1) % r.rxSnModulo : ℕ) : ℤ) < 0) := Int.not_lt.mpr (Int.natCast_nonneg _)
  have hloop := tryReassemblyLoop_next fuel hkept
  rw [← hfuel] at hloop
  rw [tryReassembly, if_neg hstart, if_neg hend, if_neg hne, Int.toNat_natCast]
  exact hloop

/-- A PDU with the next sequence number is reassembled at once and leaves the buffer. -/
theorem feed_delivers {pdu : Bytes} {sn : ℕ} (hmodulo : r.rxSnModulo = 32)
    (hsn : (pdu.getD 0 0 &&& 0x1F).toNat = sn) (hnext : (r.lastReassembliedSn + 1) % 32 = sn)
    (hpdu : ∀ darBuffer, ({ r with
        darBuffer := darBuffer
        lastReassembliedSn := sn } : UmEntity).Delivers delivered output
      (({ r with darBuffer := darBuffer, lastReassembliedSn := sn } : UmEntity).reassemblePdu pdu)) :
    (r.feed pdu).Holds output ∧ ∃ block size darBuffer, r.feed pdu =
      { r with
        outputSduInConstruction := block
        outputSduSizeToWrite := size
        dataInd := r.dataInd ++ delivered
        darBuffer := darBuffer
        lastReassembliedSn := sn } := by
  have hlt : sn < 32 := by
    rw [← hnext]
    exact Nat.mod_lt _ (by decide)
  let arrived : UmEntity := { r with darBuffer := update r.darBuffer sn (some pdu) }
  have hbuffer : arrived.darBuffer sn = some pdu := update_self _ _ _
  have hnext' : ¬(arrived.lastReassembliedSn + 1) % arrived.rxSnModulo ≠ sn := by
    change ¬(r.lastReassembliedSn + 1) % r.rxSnModulo ≠ sn
    rw [hmodulo]
    exact not_not.mpr hnext
  have hdelivers : ({ arrived with lastReassembliedSn := sn } : UmEntity).Delivers delivered output
      (({ arrived with lastReassembliedSn := sn } : UmEntity).reassemblePdu pdu) :=
    hpdu arrived.darBuffer
  obtain ⟨hholds, block, size, hafter⟩ := hdelivers
  have hreassembled : arrived.reassembleSn sn =
      { r with
        outputSduInConstruction := block
        outputSduSizeToWrite := size
        dataInd := r.dataInd ++ delivered
        darBuffer := update arrived.darBuffer sn none
        lastReassembliedSn := sn } := by
    rw [reassembleSn, hbuffer]
    simp only
    rw [if_neg hnext', hafter]
  have hkept : (arrived.reassembleSn sn).rxSnModulo = arrived.rxSnModulo := by
    rw [hreassembled]
  have hfeed : r.feed pdu = arrived.reassembleSn sn := by
    have hmodulo' : arrived.rxSnModulo = 32 := hmodulo
    rw [← tryReassembly_next (by omega) (by omega) hkept, feed, hsn]
  rw [hfeed, hreassembled]
  rw [hafter] at hholds
  exact ⟨hholds, block, size, _, rfl⟩

theorem sn_encodePdu (vtUs : UInt16) (fiFirst : Bool) (f : Frame UInt8) :
    ((encodePdu vtUs fiFirst f).getD 0 0 &&& 0x1F).toNat = vtUs.toNat % 32 := by
  have hlow : ((encodePdu vtUs fiFirst f).getD 0 0 &&& 0x1F).toNat =
      ((encodePdu vtUs fiFirst f).getD 0 0).toNat % 32 := low_toNat _ (w := 5) (by decide)
  rw [hlow, encodePdu, List.getD_cons_zero, pduB1_toNat (framingInfo_lt _ _)]
  omega

/-- A PDU that begins with the first byte of an SDU finds nothing in construction. -/
theorem output_nil_of_first (hrestore : restore output ((sdu :: sdus).map (·.rest)) =
      (sdu :: sdus).map (·.data)) (hfirst : sdu.sduRemainingSize = sdu.sduSize) : output = [] := by
  have hhead : output ++ sdu.rest = sdu.data := (List.cons.inj hrestore).1
  have hlen := congrArg List.length hhead
  rw [List.length_append, sdu.rest_length, sdu.size_eq] at hlen
  apply List.length_eq_zero_iff.mp
  omega

theorem segment_bounds {room : ℕ} (h : Packs 1 room sdus f sdus')
    (hremaining : ∀ sdu ∈ sdus, 0 < sdu.sduRemainingSize)
    (hsizes : ∀ sdu ∈ sdus, sdu.data.length < 2048) :
    ∀ segment ∈ f.complete, segment ≠ [] ∧ segment.length < 2048 := by
  intro segment hsegment
  obtain ⟨sdu, hsdu, rfl⟩ := h.complete_mem segment hsegment
  have hpos := hremaining sdu hsdu
  have hsize := hsizes sdu hsdu
  have hsum := sdu.sizes_add
  rw [sdu.size_eq] at hsize
  rw [← List.length_pos_iff, sdu.rest_length]
  omega

/-- Where the queue is empty behind a PDU the last SDU ends in it. -/
theorem reassemble_nil {room : ℕ} (h : Packs 1 room sdus f sdus') (output : Bytes)
    (hempty : sdus' = []) : (reassemble output f).2 = [] := by
  apply reassemble_ends
  cases hends : f.ends with
  | true => rfl
  | false => exact absurd (congrArg (List.map (·.rest)) hempty) (h.cut.queue_ne_nil hends)

/-- The SDUs that end in a PDU are handed up, and the two sides stay in step. -/
theorem Linked.segment5 (block : ℕ → UInt8) (h : Linked s r) (hnb : 2 ≤ s.nbBytesRequestedByMac)
    (hsdus : s.inputSdus = sdu :: sdus)
    (hsizes : ∀ sdu ∈ s.inputSdus, sdu.data.length < 2048 ∧ sdu.data.length ≤ r.sduMaxSize) :
    ∃ s' pdu, s.segment5 block = (s', some pdu) ∧
      (pdu.numFillSdu ≤ rlcUmSegmentNbMaxLiPerPdu → Linked s' (r.feed pdu.data) ∧
        (r.feed pdu.data).sduMaxSize = r.sduMaxSize ∧
        ∃ done, s.inputSdus.map (·.data) = done ++ s'.inputSdus.map (·.data) ∧
          (r.feed pdu.data).dataInd = r.dataInd ++ done) := by
  obtain ⟨room, f, sdus', hpacks, hsegment⟩ := segment5_eq block h.consistent hnb hsdus
  refine ⟨_, _, hsegment, fun hnum ↦ ?_⟩
  obtain ⟨output, hholds, hrestore, hnil⟩ := h.holds
  have hfirst : decide (sdu.sduRemainingSize = sdu.sduSize) = true → output = [] := by
    intro hfirst
    rw [hsdus] at hrestore
    exact output_nil_of_first hrestore (of_decide_eq_true hfirst)
  have hsegments := segment_bounds hpacks h.consistent.remaining_pos fun sdu hsdu ↦ (hsizes sdu hsdu).1
  have hmessages : ∀ message ∈ restore output (s.inputSdus.map (·.rest)),
      message.length ≤ r.sduMaxSize := by
    rw [hrestore]
    intro message hmessage
    obtain ⟨sdu, hsdu, rfl⟩ := List.mem_map.mp hmessage
    exact (hsizes sdu hsdu).2
  obtain ⟨hdone, hlast⟩ := hpacks.cut.messages_le hmessages
  obtain ⟨hholds', block', size', darBuffer, hfeed⟩ := feed_delivers h.rxSnModulo
    (sn_encodePdu s.vtUs (sdu.sduRemainingSize = sdu.sduSize) f) h.nextSn fun darBuffer ↦
      Holds.reassemblePdu (r := { r with darBuffer := darBuffer, lastReassembliedSn := _ }) hholds
        h.rxSnLength h.notMissing _ s.vtUs hfirst hpacks.last_pos hsegments
        (Nat.le_of_succ_le hnum) hdone hlast
  -- what is done of the queue is what was handed up
  obtain ⟨done, hdata, hlen⟩ := hpacks.data
  have hconserved := hpacks.cut.reassemble output
  rw [hrestore, hdata] at hconserved
  obtain ⟨hhanded, hrestore'⟩ := List.append_inj hconserved (by rw [reassemble_length, hlen])
  have hnext : (s.vtUs.toNat % 32 + 1) % 32 = (s.vtUs + 1).toNat % 32 := by
    have hadd : (s.vtUs + 1).toNat = (s.vtUs.toNat + 1) % 2 ^ 16 := UInt16.toNat_add _ _
    omega
  rw [hhanded] at hfeed
  rw [hfeed] at hholds' ⊢
  refine ⟨⟨h.consistent.send hpacks _, h.rxSnLength, h.rxSnModulo, h.notMissing, hnext, ?_⟩, rfl,
    done, hdata, rfl⟩
  exact ⟨_, hholds', hrestore', reassemble_nil hpacks output⟩

theorem grant_idle {nbBytes : ℕ} (block : ℕ → UInt8) (h : nbBytes < 2 ∨ s.inputSdus = []) :
    s.grant nbBytes block = ({ s with nbBytesRequestedByMac := nbBytes }, none) := by
  rw [grant, UmEntity.segment5]
  rcases h with hnb | hnil
  · exact if_pos hnb
  · split_ifs
    · rfl
    · simp only [hnil]

/-- A grant keeps the two sides in step, also where there is nothing to send. -/
theorem Linked.grant (h : Linked s r) (nbBytes : ℕ) (block : ℕ → UInt8)
    (hsizes : ∀ sdu ∈ s.inputSdus, sdu.data.length < 2048 ∧ sdu.data.length ≤ r.sduMaxSize)
    (hlis : ∀ pdu ∈ (s.grant nbBytes block).2.toList, pdu.numFillSdu ≤ rlcUmSegmentNbMaxLiPerPdu) :
    Linked (s.grant nbBytes block).1 (r.feedAll (s.grant nbBytes block).2.toList) ∧
      (r.feedAll (s.grant nbBytes block).2.toList).sduMaxSize = r.sduMaxSize ∧
      ∃ done, s.inputSdus.map (·.data) = done ++ (s.grant nbBytes block).1.inputSdus.map (·.data) ∧
        (r.feedAll (s.grant nbBytes block).2.toList).dataInd = r.dataInd ++ done := by
  have hlinked : Linked { s with nbBytesRequestedByMac := nbBytes } r :=
    ⟨⟨h.1.1, h.1.2, h.1.3⟩, h.2, h.3, h.4, h.5, h.6⟩
  by_cases hidle : nbBytes < 2 ∨ s.inputSdus = []
  · rw [grant_idle block hidle]
    exact ⟨hlinked, rfl, [], rfl, (List.append_nil _).symm⟩
  · rw [not_or, Nat.not_lt] at hidle
    obtain ⟨sdu, sdus, hsdus⟩ := List.exists_cons_of_ne_nil hidle.2
    obtain ⟨s', pdu, hsegment, hstep⟩ := hlinked.segment5 block hidle.1 hsdus hsizes
    have hgrant : s.grant nbBytes block = (s', some pdu) := hsegment
    rw [hgrant] at hlis ⊢
    exact hstep (hlis pdu (List.mem_singleton_self pdu))

theorem segmentAll_cons (nbBytes : ℕ) (block : ℕ → UInt8) (grants : List (ℕ × (ℕ → UInt8)))
    (s : UmEntity) :
    segmentAll ((nbBytes, block) :: grants) s =
      ((segmentAll grants (s.grant nbBytes block).1).1,
        (s.grant nbBytes block).2.toList ++ (segmentAll grants (s.grant nbBytes block).1).2) := rfl

theorem feedAll_append (pdus pdus' : List TxPdu) (r : UmEntity) :
    r.feedAll (pdus ++ pdus') = (r.feedAll pdus).feedAll pdus' := List.foldl_append

theorem Linked.segmentAll (grants : List (ℕ × (ℕ → UInt8))) (h : Linked s r)
    (hsizes : ∀ sdu ∈ s.inputSdus, sdu.data.length < 2048 ∧ sdu.data.length ≤ r.sduMaxSize)
    (hlis : ∀ pdu ∈ (s.segmentAll grants).2, pdu.numFillSdu ≤ rlcUmSegmentNbMaxLiPerPdu) :
    Linked (s.segmentAll grants).1 (r.feedAll (s.segmentAll grants).2) ∧
      ∃ done, s.inputSdus.map (·.data) = done ++ (s.segmentAll grants).1.inputSdus.map (·.data) ∧
        (r.feedAll (s.segmentAll grants).2).dataInd = r.dataInd ++ done := by
  induction grants generalizing s r with
  | nil => exact ⟨h, [], rfl, (List.append_nil _).symm⟩
  | cons head grants ih =>
    obtain ⟨nbBytes, block⟩ := head
    rw [segmentAll_cons] at hlis ⊢
    rw [feedAll_append]
    obtain ⟨hlinked, hmax, done, hdata, hind⟩ := h.grant nbBytes block hsizes
      fun pdu hpdu ↦ hlis pdu (List.mem_append_left _ hpdu)
    have hsizes' : ∀ sdu ∈ (s.grant nbBytes block).1.inputSdus, sdu.data.length < 2048 ∧
        sdu.data.length ≤ (r.feedAll (s.grant nbBytes block).2.toList).sduMaxSize := by
      intro sdu hsdu
      have hmem : sdu.data ∈ s.inputSdus.map (·.data) := by
        rw [hdata]
        exact List.mem_append_right _ (List.mem_map_of_mem hsdu)
      obtain ⟨sdu', hsdu', heq⟩ := List.mem_map.mp hmem
      rw [hmax, ← heq]
      exact hsizes sdu' hsdu'
    obtain ⟨hlinked', done', hdata', hind'⟩ := ih hlinked hsizes'
      fun pdu hpdu ↦ hlis pdu (List.mem_append_right _ hpdu)
    refine ⟨hlinked', done ++ done', ?_, ?_⟩
    · rw [hdata, hdata', List.append_assoc]
    · rw [hind', hind, List.append_assoc]

theorem packs_length {room : ℕ} (h : Packs 1 room sdus f sdus') :
    f.complete.length + 1 ≤ sdus.length ∧ sdus'.length ≤ sdus.length := by
  obtain ⟨done, hdata, hlen⟩ := h.data
  have hsum := congrArg List.length hdata
  rw [List.length_append, List.length_map, List.length_map] at hsum
  cases hends : f.ends with
  | true =>
    rw [hends, Bool.toNat_true] at hlen
    omega
  | false =>
    have hne := h.cut.queue_ne_nil hends
    have hpos := List.length_pos_iff.mpr hne
    rw [List.length_map] at hpos
    omega

theorem Consistent.grant (h : s.Consistent) (nbBytes : ℕ) (block : ℕ → UInt8) :
    (s.grant nbBytes block).1.Consistent ∧
      (2 ≤ nbBytes → (s.grant nbBytes block).1.bufferOccupancy ≤ s.bufferOccupancy - 1) ∧
      (s.grant nbBytes block).1.inputSdus.length ≤ s.inputSdus.length ∧
      ∀ pdu ∈ (s.grant nbBytes block).2.toList, pdu.numFillSdu ≤ s.inputSdus.length := by
  have hconsistent : Consistent { s with nbBytesRequestedByMac := nbBytes } := ⟨h.1, h.2, h.3⟩
  by_cases hidle : nbBytes < 2 ∨ s.inputSdus = []
  · rw [grant_idle block hidle]
    refine ⟨hconsistent, ?_, Nat.le_refl _, fun _ hmem ↦ absurd hmem List.not_mem_nil⟩
    intro hnb
    have hnil : s.inputSdus = [] := hidle.resolve_left (Nat.not_lt.mpr hnb)
    have hzero := h.bufferOccupancy
    rw [hnil] at hzero
    exact hzero.le.trans (Nat.zero_le _)
  · rw [not_or, Nat.not_lt] at hidle
    obtain ⟨sdu, sdus, hsdus⟩ := List.exists_cons_of_ne_nil hidle.2
    obtain ⟨room, f, sdus', hpacks, hsegment⟩ := segment5_eq block hconsistent hidle.1 hsdus
    obtain ⟨hfill, hlength⟩ := packs_length hpacks
    have hlast := hpacks.last_pos
    have hpayload := f.payload_length
    rw [UmEntity.grant, hsegment]
    refine ⟨hconsistent.send hpacks _, ?_, hlength, ?_⟩
    · intro _
      change s.bufferOccupancy - f.payload.length ≤ s.bufferOccupancy - 1
      omega
    · intro pdu hpdu
      rw [List.mem_singleton.mp hpdu]
      exact hfill

theorem Consistent.segmentAll (grants : List (ℕ × (ℕ → UInt8))) (h : s.Consistent) :
    (s.segmentAll grants).1.Consistent ∧
      ((∀ grant ∈ grants, 2 ≤ grant.1) →
        (s.segmentAll grants).1.bufferOccupancy ≤ s.bufferOccupancy - grants.length) ∧
      ∀ pdu ∈ (s.segmentAll grants).2, pdu.numFillSdu ≤ s.inputSdus.length := by
  induction grants generalizing s with
  | nil => exact ⟨h, fun _ ↦ Nat.le_refl _, fun _ hmem ↦ absurd hmem List.not_mem_nil⟩
  | cons head grants ih =>
    obtain ⟨nbBytes, block⟩ := head
    obtain ⟨hconsistent, hless, hlength, hfill⟩ := h.grant nbBytes block
    obtain ⟨hconsistent', hless', hfill'⟩ := ih hconsistent
    rw [segmentAll_cons]
    refine ⟨hconsistent', ?_, ?_⟩
    · intro hgrants
      obtain ⟨hfirst, hothers⟩ := List.forall_mem_cons.mp hgrants
      have hnow := hless hfirst
      have hthen := hless' hothers
      rw [List.length_cons]
      change (UmEntity.segmentAll grants _).1.bufferOccupancy ≤ _
      omega
    · intro pdu hpdu
      rcases List.mem_append.mp hpdu with hpdu | hpdu
      · exact hfill pdu hpdu
      · exact (hfill' pdu hpdu).trans hlength

theorem Consistent.empty (h : s.Consistent) (hzero : s.bufferOccupancy = 0) : s.inputSdus = [] := by
  cases hsdus : s.inputSdus with
  | nil => rfl
  | cons sdu sdus =>
    have hpos := h.remaining_pos sdu (by rw [hsdus]; exact List.mem_cons_self)
    have hsum := h.bufferOccupancy
    rw [hsdus, List.map_cons, List.sum_cons] at hsum
    omega

/-- The SDUs that are handed up are those that have left the sender's queue, in order and byte for
byte, and each SDU in the queue has bytes that are not sent. -/
theorem roundTrip (grants : List (ℕ × (ℕ → UInt8))) (h : Linked s r)
    (hsizes : ∀ sdu ∈ s.inputSdus, sdu.data.length < 2048 ∧ sdu.data.length ≤ r.sduMaxSize)
    (hlis : ∀ pdu ∈ (s.segmentAll grants).2, pdu.numFillSdu ≤ rlcUmSegmentNbMaxLiPerPdu) :
    (r.feedAll (s.segmentAll grants).2).dataInd ++ (s.segmentAll grants).1.inputSdus.map (·.data) =
        r.dataInd ++ s.inputSdus.map (·.data) ∧
      (∀ sdu ∈ (s.segmentAll grants).1.inputSdus, 0 < sdu.sduRemainingSize) ∧
      ((∀ grant ∈ grants, 2 ≤ grant.1) → s.bufferOccupancy ≤ grants.length →
        (s.segmentAll grants).1.inputSdus = []) := by
  obtain ⟨hlinked, done, hdata, hind⟩ := h.segmentAll grants hsizes hlis
  obtain ⟨hconsistent, hless, -⟩ := h.consistent.segmentAll grants
  refine ⟨?_, hconsistent.remaining_pos, ?_⟩
  · rw [hind, hdata, List.append_assoc]
  · intro hgrants hlength
    apply hconsistent.empty
    have hleft := hless hgrants
    omega

/-- A sender with two SDUs. -/
def twoSdus : UmEntity := ((configured true).dataReq [1, 2, 3]).dataReq [4, 5]

theorem twoSdus_linked : Linked twoSdus (configured true) :=
  ((linked_configured true true).dataReq (List.cons_ne_nil _ _)).dataReq (List.cons_ne_nil _ _)

theorem twoSdus_roundTrip :
    ((configured true).feedAll (twoSdus.segmentAll [(3, fun _ ↦ 0), (20, fun _ ↦ 0)]).2).dataInd ++
        (twoSdus.segmentAll [(3, fun _ ↦ 0), (20, fun _ ↦ 0)]).1.inputSdus.map (·.data) =
      (configured true).dataInd ++ twoSdus.inputSdus.map (·.data) := by
  have hfew : ∀ pdu ∈ (twoSdus.segmentAll [(3, fun _ ↦ 0), (20, fun _ ↦ 0)]).2,
      pdu.numFillSdu ≤ rlcUmSegmentNbMaxLiPerPdu := fun pdu hpdu ↦
    ((twoSdus_linked.consistent.segmentAll _).2.2 pdu hpdu).trans (by decide)
  exact (roundTrip _ twoSdus_linked (by decide) hfew).1

theorem Bounded.feedAll {max : ℕ} (pdus : List TxPdu) (h : r.Bounded max) :
    (r.feedAll pdus).Bounded max := by
  induction pdus generalizing r with
  | nil => exact h
  | cons pdu pdus ih => exact ih ((h.setDarBuffer _).tryReassembly _ _)

theorem dataReq_bufferOccupancy (data : Bytes) (s : UmEntity) :
    (s.dataReq data).bufferOccupancy = s.bufferOccupancy + data.length := rfl

theorem configured_dataReq (isDataPlane : Bool) (data : Bytes) :
    ((configured isDataPlane).dataReq data).inputSdus.map (·.data) = [data] := rfl

/-- A sender of an SRB with an SDU of 2001 bytes. -/
def largeSdu : UmEntity := (configured false).dataReq (List.replicate 2001 0x2A)

theorem largeSdu_linked : Linked largeSdu (configured false) :=
  (linked_configured false false).dataReq (List.cons_ne_nil _ _)

/-- The SDU is sent to its last byte, and it is not handed up. -/
theorem largeSdu_not_delivered :
    Linked largeSdu (configured false) ∧ (∀ sdu ∈ largeSdu.inputSdus, sdu.data.length < 2048) ∧
      (∀ pdu ∈ (largeSdu.segmentAll (List.replicate 2001 (3000, fun _ ↦ 0))).2,
        pdu.numFillSdu ≤ rlcUmSegmentNbMaxLiPerPdu) ∧
      (largeSdu.segmentAll (List.replicate 2001 (3000, fun _ ↦ 0))).1.inputSdus = [] ∧
      ¬((configured false).feedAll
            (largeSdu.segmentAll (List.replicate 2001 (3000, fun _ ↦ 0))).2).dataInd ++
          (largeSdu.segmentAll (List.replicate 2001 (3000, fun _ ↦ 0))).1.inputSdus.map (·.data) =
        (configured false).dataInd ++ largeSdu.inputSdus.map (·.data) := by
  obtain ⟨hconsistent, hless, hfew⟩ := largeSdu_linked.consistent.segmentAll
    (List.replicate 2001 (3000, fun _ ↦ 0))
  have hsize : ∀ sdu ∈ largeSdu.inputSdus, sdu.data.length = 2001 := by
    intro sdu hsdu
    rw [List.mem_singleton.mp hsdu]
    exact List.length_replicate
  have hempty : (largeSdu.segmentAll (List.replicate 2001 (3000, fun _ ↦ 0))).1.inputSdus = [] := by
    apply hconsistent.empty
    have hleft := hless fun grant hgrant ↦ (List.eq_of_mem_replicate hgrant).symm ▸ (by decide)
    have hoccupancy : largeSdu.bufferOccupancy = 0 + 2001 := by
      rw [largeSdu, dataReq_bufferOccupancy, List.length_replicate]
      rfl
    rw [List.length_replicate] at hleft
    omega
  refine ⟨largeSdu_linked, fun sdu hsdu ↦ ?_, fun pdu hpdu ↦ (hfew pdu hpdu).trans (by decide), hempty, ?_⟩
  · rw [hsize sdu hsdu]
    decide
  · intro hdelivered
    have hbounded : (configured false).Bounded 2000 := ⟨rfl, Nat.zero_le _, fun _ hmem ↦
      absurd hmem List.not_mem_nil⟩
    rw [hempty, List.map_nil, List.append_nil] at hdelivered
    have hmem : List.replicate 2001 (0x2A : UInt8) ∈ ((configured false).feedAll
        (largeSdu.segmentAll (List.replicate 2001 (3000, fun _ ↦ 0))).2).dataInd := by
      rw [hdelivered, largeSdu, configured_dataReq]
      exact List.mem_append_right _ (List.mem_singleton_self _)
    have hle := (hbounded.feedAll _).dataInd _ hmem
    rw [List.length_replicate] at hle
    exact absurd hle (by decide)

end UmEntity

end EdgeSlice.Rlc
