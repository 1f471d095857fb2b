import EdgeSlice.Rlc.UmFilling

namespace EdgeSlice.Rlc

open ByteMemory BitField Segmentation

namespace UmEntity

/-- A PDU with a sequence number of five bits, and the frame in it. -/
def encodePdu (vtUs : UInt16) (fiFirst : Bool) (f : Frame UInt8) : Bytes :=
  pduB1 (framingInfo fiFirst f.ends) (f.complete.length > 0) vtUs ::
    (encodeLis (f.complete.map List.length) ++ f.payload)

/-- The buffer occupancy is what is left of the SDUs of the queue, none of which is empty. -/
structure Consistent (s : UmEntity) : Prop where
  txHeaderMinLengthInBytes : s.txHeaderMinLengthInBytes = 1
  bufferOccupancy : s.bufferOccupancy = (s.inputSdus.map (·.sduRemainingSize)).sum
  remaining_pos : ∀ sdu ∈ s.inputSdus, 0 < sdu.sduRemainingSize

variable {s : UmEntity} {block : ℕ → UInt8} {sdu : TxSdu} {sdus sdus' : List TxSdu} {f : Frame UInt8}

theorem maxLiOverhead_eq (n : ℕ) : maxLiOverhead n = liBytes 1 (n - 1) := by
  obtain ⟨m, hm⟩ : ∃ m, n - 1 = 2 * m ∨ n - 1 = 2 * m + 1 := ⟨(n - 1) / 2, by omega⟩
  rw [(liBytes_eq (n - 1)).1, maxLiOverhead]
  rcases hm with hm | hm
  · split_ifs with h
    · omega
    · omega
  · rw [if_neg (by omega)]
    omega

theorem Consistent.dataPduSize (h : s.Consistent) (hnb : 2 ≤ s.nbBytesRequestedByMac)
    (hne : s.inputSdus ≠ []) :
    2 ≤ s.dataPduSize ∧ s.dataPduSize - 1 ≤
      (s.inputSdus.map (·.sduRemainingSize)).sum + liBytes 1 (s.inputSdus.length - 1) := by
  have hpos : 0 < (s.inputSdus.map (·.sduRemainingSize)).sum := by
    obtain ⟨sdu, sdus, hsdus⟩ := List.exists_cons_of_ne_nil hne
    have hsdu := h.remaining_pos sdu (by rw [hsdus]; exact List.mem_cons_self)
    rw [hsdus, List.map_cons, List.sum_cons]
    omega
  simp only [UmEntity.dataPduSize, h.txHeaderMinLengthInBytes, h.bufferOccupancy, maxLiOverhead_eq]
  split_ifs with hall
  · omega
  · omega

/-- What the frame takes from the queue is taken from the buffer occupancy. -/
theorem Consistent.send {room : ℕ} (h : s.Consistent) (hpacks : Packs 1 room s.inputSdus f sdus')
    (vtUs : UInt16) :
    Consistent
      { s with
        inputSdus := sdus'
        bufferOccupancy := s.bufferOccupancy - f.payload.length
        vtUs := vtUs } where
  txHeaderMinLengthInBytes := h.txHeaderMinLengthInBytes
  bufferOccupancy := by
    have hpayload := hpacks.payload_length
    have hoccupancy := h.bufferOccupancy
    change s.bufferOccupancy - f.payload.length = (sdus'.map (·.sduRemainingSize)).sum
    omega
  remaining_pos := hpacks.remaining_pos h.remaining_pos

/-- Header, length indicators and data stand one behind the other. -/
theorem load_filled {g f' : Filling} (header : Bytes) (h : g.Filled f.complete.length f f')
    (heLi : g.eLi = header.length) (hli : g.liLengthInBytes = 1)
    (hdata : g.data = header.length + lisSize f.complete.length) :
    load (store f'.pdu 0 header) 0 (header.length + (lisSize f.complete.length + f.payload.length)) =
      header ++ (encodeLis (f.complete.map List.length) ++ f.payload) := by
  have hlis : Stores f'.pdu header.length (encodeLis (f.complete.map List.length)) := by
    have hlis := h.lis
    rw [Filling.liField, if_neg (by omega), heLi] at hlis
    exact hlis
  have hlen : (encodeLis (f.complete.map List.length)).length = lisSize f.complete.length := by
    rw [encodeLis_length, List.length_map]
  have hpayload := h.payload
  rw [hdata, ← hlen] at hpayload
  have hbody : Stores (store f'.pdu 0 header) header.length
      (encodeLis (f.complete.map List.length) ++ f.payload) := by
    refine (stores_append.mpr ⟨hlis, hpayload⟩).congr fun q hq _ ↦ ?_
    exact store_outside (Or.inr (by rwa [Nat.zero_add]))
  have hall : Stores (store f'.pdu 0 header) 0
      (header ++ (encodeLis (f.complete.map List.length) ++ f.payload)) := by
    refine stores_append.mpr ⟨stores_store, ?_⟩
    rw [Nat.zero_add]
    exact hbody
  have hload := load_of_stores hall
  rw [List.length_append, List.length_append, hlen] at hload
  exact hload

/-- The variables before the pass that counts the SDUs. -/
def firstPass (s : UmEntity) : DryPass := ⟨s.dataPduSize - 1, s.dataPduSize, s.dataPduSize - 1, 1, 0, 0, 0, 0⟩

/-- The frame that the pass finds, for which the PDU is made smaller by `reduced` bytes. -/
structure Found (s : UmEntity) (reduced : ℕ) (f : Frame UInt8) (sdus' : List TxSdu) : Prop where
  packs : Packs 1 (s.dataPduSize - 1 - reduced) s.inputSdus f sdus'
  finds : s.firstPass.Finds reduced f (DryPass.loop s.inputSdus s.firstPass)
  ends : 0 < reduced → f.ends = true
  bound : s.dataPduSize - 1 ≤ f.payload.length + liBytes 1 (f.complete.length + 1)

variable {reduced : ℕ}

theorem Consistent.found (h : s.Consistent) (hnb : 2 ≤ s.nbBytesRequestedByMac)
    (hne : s.inputSdus ≠ []) : ∃ reduced f sdus', s.Found reduced f sdus' := by
  obtain ⟨htwo, hcap⟩ := h.dataPduSize hnb hne
  have hroom : 0 < s.firstPass.testPduRemainingSize := by
    change 0 < s.dataPduSize - 1
    omega
  obtain ⟨reduced, f, sdus', hpacks, hfinds, hends, hbound⟩ :=
    DryPass.loop_packs_reduced (d := s.firstPass) hne h.remaining_pos (Or.inl rfl) hroom hcap
  exact ⟨reduced, f, sdus', hpacks, hfinds, hends, hbound⟩

namespace Found

theorem dataPduSize (h : s.Found reduced f sdus') :
    s.dataPduSize = 1 + (lisSize f.complete.length + f.payload.length) + reduced := by
  have hroom := h.packs.room_eq
  have hpos := h.packs.room_pos
  rw [(liBytes_eq _).1] at hroom
  rw [lisSize_eq]
  omega

theorem pass (h : s.Found reduced f sdus') :
    (DryPass.loop s.inputSdus s.firstPass).testNumLi = f.complete.length ∧
    (DryPass.loop s.inputSdus s.firstPass).numFillSdu = f.complete.length + 1 ∧
    (DryPass.loop s.inputSdus s.firstPass).pduRemainingSize = s.dataPduSize - 1 - reduced ∧
    (DryPass.loop s.inputSdus s.firstPass).dataPduSize =
      1 + (lisSize f.complete.length + f.payload.length) := by
  have hsize := h.finds.dataPduSize
  have hroom : s.firstPass.dataPduSize = s.dataPduSize := rfl
  have hall := h.dataPduSize
  refine ⟨h.finds.testNumLi.trans (Nat.zero_add _), h.finds.numFillSdu.trans (Nat.zero_add _),
    h.finds.pduRemainingSize, ?_⟩
  omega

/-- The pass that fills the PDU, with a header of any size. -/
theorem filled (h : s.Found reduced f sdus') {g : Filling} (hli : g.liLengthInBytes = 1)
    (hnum : g.fillNumLi = 0) (hroom : g.pduRemainingSize = s.dataPduSize - 1 - reduced)
    (hdata : g.data = g.eLi + lisSize f.complete.length) :
    Filling.loop f.complete.length s.inputSdus g =
        ((Filling.loop f.complete.length s.inputSdus g).1, sdus') ∧
      g.Filled f.complete.length f (Filling.loop f.complete.length s.inputSdus g).1 := by
  obtain ⟨hrest, hfilled⟩ := Filling.loop_filled (f := g) h.packs (Or.inl hli) hli hroom
    (by rw [hnum, Nat.zero_add])
    (by
      rw [(Filling.liField_length _).1 hli, List.length_map, ← lisSize_eq, hdata])
  exact ⟨by rw [← hrest], hfilled⟩

/-- A PDU carries the frame, which is gone from the queue then. -/
theorem segment5 (block : ℕ → UInt8) (h : s.Found reduced f sdus')
    (hnb : 2 ≤ s.nbBytesRequestedByMac) (hsdus : s.inputSdus = sdu :: sdus) :
    s.segment5 block =
      ({ s with
          inputSdus := sdus'
          bufferOccupancy := s.bufferOccupancy - f.payload.length
          vtUs := s.vtUs + 1 },
        some ⟨encodePdu s.vtUs (sdu.sduRemainingSize = sdu.sduSize) f, f.complete.length + 1⟩) := by
  have hrun : DryPass.run s.dataPduSize 1 s.inputSdus = DryPass.loop s.inputSdus s.firstPass := by
    rw [DryPass.run, DryPass.dropLi]
    exact if_neg (by
      change ¬(DryPass.loop s.inputSdus s.firstPass).testRemainingNumLiToSubstract > 0
      rw [h.finds.noLi]
      exact Nat.lt_irrefl 0)
  obtain ⟨hnum, hnumSdu, hrunSize, hpduSize⟩ := h.pass
  let g := startFilling block f.complete.length (s.dataPduSize - 1 - reduced) s.bufferOccupancy
  obtain ⟨hloop, hfilled⟩ := h.filled (g := g) rfl rfl rfl rfl
  rw [UmEntity.segment5, if_neg (by omega)]
  simp only [hsdus] at hrun hnum hnumSdu hpduSize hloop hrunSize hfilled ⊢
  rw [hrun, hnum, hnumSdu, hpduSize, hrunSize, hloop]
  have hload := load_filled
    [pduB1 (framingInfo (sdu.sduRemainingSize = sdu.sduSize) f.ends) (f.complete.length > 0) s.vtUs]
    hfilled rfl rfl rfl
  rw [List.length_singleton] at hload
  simp only [hfilled.fiLast, hfilled.fillNumLi, hfilled.pduRemainingSize, hfilled.bufferOccupancy,
    Nat.sub_zero, hload]
  rfl

end Found

/-- A PDU carries a frame of SDUs, which are gone from the queue then. -/
theorem segment5_eq (block : ℕ → UInt8) (h : s.Consistent) (hnb : 2 ≤ s.nbBytesRequestedByMac)
    (hsdus : s.inputSdus = sdu :: sdus) :
    ∃ room f sdus', Packs 1 room s.inputSdus f sdus' ∧
      s.segment5 block =
        ({ s with
            inputSdus := sdus'
            bufferOccupancy := s.bufferOccupancy - f.payload.length
            vtUs := s.vtUs + 1 },
          some ⟨encodePdu s.vtUs (sdu.sduRemainingSize = sdu.sduSize) f, f.complete.length + 1⟩) := by
  have hne : s.inputSdus ≠ [] := by
    rw [hsdus]
    exact List.cons_ne_nil _ _
  obtain ⟨reduced, f, sdus', hfound⟩ := h.found hnb hne
  exact ⟨_, f, sdus', hfound.packs, hfound.segment5 block hnb hsdus⟩

end UmEntity

end EdgeSlice.Rlc
