import EdgeSlice.Rlc.AmAcknowledgement

namespace EdgeSlice.Rlc.AmTransmitter

open Function

variable {s t : AmTransmitter} {index sn target fuel : ℕ}

/-- What the confirmation of SDUs rests on. -/
structure SdusValid (s : AmTransmitter) : Prop where
  /-- The PDUs refer to slots of the SDU buffer. -/
  sdusIndex_lt : ∀ i, ∀ index ∈ (s.txDataPduBuffer i).sdusIndex, index < rlcAmSduControlBufferSize
  /-- The data of an SDU has been freed when nothing remains of it. -/
  memBlock_eq_none : ∀ i, (s.inputSdus i).sduRemainingSize = 0 → (s.inputSdus i).memBlock = none
  nextSduIndex_lt : s.nextSduIndex < rlcAmSduControlBufferSize
  currentSduIndex_lt : s.currentSduIndex < rlcAmSduControlBufferSize

/-- What the confirmation of SDUs leaves alone. -/
structure SamePdus (s t : AmTransmitter) : Prop where
  vtA_eq : t.vtA = s.vtA
  acked_eq : t.acked = s.acked
  txDataPduBuffer_eq : t.txDataPduBuffer = s.txDataPduBuffer

theorem SamePdus.refl (s : AmTransmitter) : s.SamePdus s := ⟨rfl, rfl, rfl⟩

theorem SamePdus.trans {u : AmTransmitter} (h : s.SamePdus t) (h' : t.SamePdus u) : s.SamePdus u :=
  ⟨h'.vtA_eq.trans h.vtA_eq, h'.acked_eq.trans h.acked_eq, h'.txDataPduBuffer_eq.trans h.txDataPduBuffer_eq⟩

theorem SdusValid.setSdu (hs : s.SdusValid) (index : ℕ) (sdu : AmTxSdu)
    (hsdu : sdu.sduRemainingSize = 0 → sdu.memBlock = none) : (s.setSdu index sdu).SdusValid where
  sdusIndex_lt := hs.sdusIndex_lt
  memBlock_eq_none i := by
    rcases eq_or_ne i index with rfl | hne
    · have hself : (s.setSdu i sdu).inputSdus i = sdu := update_self _ _ _
      rw [hself]
      exact hsdu
    · have hother : (s.setSdu index sdu).inputSdus i = s.inputSdus i := update_of_ne hne _ _
      rw [hother]
      exact hs.memBlock_eq_none i
  nextSduIndex_lt := hs.nextSduIndex_lt
  currentSduIndex_lt := hs.currentSduIndex_lt

theorem SdusValid.advance (hs : s.SdusValid) :
    { s with currentSduIndex := (s.currentSduIndex + 1) % rlcAmSduControlBufferSize }.SdusValid where
  sdusIndex_lt := hs.sdusIndex_lt
  memBlock_eq_none := hs.memBlock_eq_none
  nextSduIndex_lt := hs.nextSduIndex_lt
  currentSduIndex_lt := Nat.mod_lt _ (by decide)

/-- The loop ends at `next_sdu_index` at the latest. -/
theorem skipTransmitted_total (hs : s.SdusValid)
    (hfuel : (s.nextSduIndex + 1024 - s.currentSduIndex) % 1024 < fuel) :
    ∃ t, s.skipTransmitted fuel = some t ∧ t.SdusValid ∧ s.SamePdus t := by
  induction fuel generalizing s with
  | zero => omega
  | succ fuel ih =>
    rw [skipTransmitted]
    split_ifs with hmore
    · have hnext : s.nextSduIndex < 1024 := hs.nextSduIndex_lt
      have hcurrent : s.currentSduIndex < 1024 := hs.currentSduIndex_lt
      have hne := hmore.1
      have hcloser : (s.nextSduIndex + 1024 - (s.currentSduIndex + 1) % 1024) % 1024 < fuel := by omega
      obtain ⟨t, ht, hvalid, hsame⟩ := ih hs.advance hcloser
      exact ⟨t, ht, hvalid, hsame.vtA_eq, hsame.acked_eq, hsame.txDataPduBuffer_eq⟩
    · exact ⟨s, rfl, hs, SamePdus.refl s⟩

theorem freeInSdu_total (hs : s.SdusValid) (hindex : index < rlcAmSduControlBufferSize)
    (hmem : (s.inputSdus index).memBlock = none) :
    ∃ t, s.freeInSdu index = some t ∧ t.SdusValid ∧ s.SamePdus t := by
  have hfreed : ({ s with nbSdu := s.nbSdu - 1 }.setSdu index
      { AmTxSdu.zero with transmittedSuccessfully := true }).SdusValid :=
    SdusValid.setSdu (s := { s with nbSdu := s.nbSdu - 1 })
      ⟨hs.sdusIndex_lt, hs.memBlock_eq_none, hs.nextSduIndex_lt, hs.currentSduIndex_lt⟩ index _ fun _ ↦ rfl
  have hfuel (u : AmTransmitter) :
      (u.nextSduIndex + 1024 - u.currentSduIndex) % 1024 < rlcAmSduControlBufferSize + 1 :=
    Nat.lt_succ_of_lt (Nat.mod_lt _ (by decide))
  rw [freeInSdu, if_pos hindex.le, hmem]
  simp only [Option.isSome_none, Bool.false_eq_true, if_false]
  split_ifs
  · obtain ⟨t, ht, hvalid, hsame⟩ := skipTransmitted_total hfreed.advance (hfuel _)
    exact ⟨t, ht, hvalid, hsame.vtA_eq, hsame.acked_eq, hsame.txDataPduBuffer_eq⟩
  · obtain ⟨t, ht, hvalid, hsame⟩ := skipTransmitted_total hfreed (hfuel _)
    exact ⟨t, ht, hvalid, hsame.vtA_eq, hsame.acked_eq, hsame.txDataPduBuffer_eq⟩

theorem confirmSegment_total (hs : s.SdusValid) (hindex : index < rlcAmSduControlBufferSize) :
    ∃ t, s.confirmSegment index = some t ∧ t.SdusValid ∧ s.SamePdus t := by
  have hcounted := hs.setSdu index { s.inputSdus index with nbPdusAck := (s.inputSdus index).nbPdusAck + 1 }
    (hs.memBlock_eq_none index)
  simp only [confirmSegment]
  rw [if_pos hindex]
  split_ifs with hdone
  · have hmem : ((s.setSdu index { s.inputSdus index with
        nbPdusAck := (s.inputSdus index).nbPdusAck + 1 }).inputSdus index).memBlock = none := by
      have hself : (s.setSdu index { s.inputSdus index with
          nbPdusAck := (s.inputSdus index).nbPdusAck + 1 }).inputSdus index =
            { s.inputSdus index with nbPdusAck := (s.inputSdus index).nbPdusAck + 1 } := update_self _ _ _
      rw [hself]
      exact hs.memBlock_eq_none index hdone.2
    obtain ⟨t, ht, hvalid, hsame⟩ := freeInSdu_total
      (s := { s.setSdu index { s.inputSdus index with nbPdusAck := (s.inputSdus index).nbPdusAck + 1 } with
        dataConf := s.dataConf ++ [(s.inputSdus index).mui] })
      ⟨hcounted.sdusIndex_lt, hcounted.memBlock_eq_none, hcounted.nextSduIndex_lt,
        hcounted.currentSduIndex_lt⟩ hindex hmem
    exact ⟨t, ht, hvalid, hsame.vtA_eq, hsame.acked_eq, hsame.txDataPduBuffer_eq⟩
  · exact ⟨_, rfl, hcounted, rfl, rfl, rfl⟩

theorem pduSduDataCnf_total (hs : s.SdusValid) (sn : ℕ) :
    ∃ t, s.pduSduDataCnf sn = some t ∧ t.SdusValid ∧ s.SamePdus t := by
  have hlist (indices : List ℕ) (hindices : ∀ index ∈ indices, index < rlcAmSduControlBufferSize) :
      ∃ t, indices.foldlM (fun s index ↦ s.confirmSegment index) s = some t ∧ t.SdusValid ∧
        s.SamePdus t := by
    induction indices generalizing s with
    | nil => exact ⟨s, rfl, hs, SamePdus.refl s⟩
    | cons index indices ih =>
      obtain ⟨hindex, hindices⟩ := List.forall_mem_cons.mp hindices
      obtain ⟨t, ht, hvalid, hsame⟩ := confirmSegment_total hs hindex
      obtain ⟨u, hu, hvalid', hsame'⟩ := ih hvalid hindices
      refine ⟨u, ?_, hvalid', hsame.trans hsame'⟩
      rw [List.foldlM_cons, ht]
      exact hu
  exact hlist _ fun index hmem ↦ hs.sdusIndex_lt _ index (List.mem_of_mem_take hmem)

theorem confirmUpTo_total {a d e : ℕ} (ha : a < 1024) (hs : s.SdusValid) (hde : d ≤ e) (he : e < 1024)
    (hfuel : e - d < fuel) :
    ∃ t, s.confirmUpTo (snAt a e) fuel (snAt a d) = some t ∧ t.SdusValid ∧ s.SamePdus t := by
  induction fuel generalizing d s with
  | zero => omega
  | succ fuel ih =>
    rw [confirmUpTo]
    rcases hde.eq_or_lt with rfl | hlt
    · rw [if_neg fun hne ↦ hne rfl]
      exact ⟨s, rfl, hs, SamePdus.refl s⟩
    · obtain ⟨t, ht, hvalid, hsame⟩ := pduSduDataCnf_total hs (snAt a d)
      obtain ⟨u, hu, hvalid', hsame'⟩ := ih hvalid hlt (by omega)
      refine ⟨u, ?_, hvalid', hsame.trans hsame'⟩
      rw [if_pos (snAt_ne ha (by omega) he hlt.ne), ht, amNextSn_snAt]
      exact hu

theorem SdusValid.stopPoll (hs : s.SdusValid) (ackSn : ℕ) : (s.stopPoll ackSn).SdusValid := by
  rw [AmTransmitter.stopPoll]
  split_ifs
  · exact ⟨hs.sdusIndex_lt, hs.memBlock_eq_none, hs.nextSduIndex_lt, hs.currentSduIndex_lt⟩
  · exact hs

theorem stopPoll_same (ackSn : ℕ) (s : AmTransmitter) : s.SamePdus (s.stopPoll ackSn) := by
  rw [stopPoll]
  split_ifs
  · exact ⟨rfl, rfl, rfl⟩
  · exact SamePdus.refl s

theorem confirmSdus_total (hs : s.SdusValid) (hvtA : s.vtA < 1024) (hsn : sn < 1024) (soStop : ℕ) :
    ∃ t, s.confirmSdus sn soStop = some t ∧ t.SdusValid ∧ s.SamePdus t := by
  have hoffset := amDiffSn_lt sn s.vtA
  obtain ⟨t, ht, hvalid, hsame⟩ := confirmUpTo_total hvtA hs (Nat.zero_le _) hoffset (show _ < 1025 by omega)
  rw [snAt_amDiffSn hvtA hsn, snAt_zero hvtA] at ht
  simp only [confirmSdus]
  split_ifs
  · obtain ⟨u, hu, hvalid', hsame'⟩ := pduSduDataCnf_total hvalid sn
    refine ⟨u, ?_, hvalid', hsame.trans hsame'⟩
    rw [ht]
    exact hu
  · refine ⟨t, ?_, hvalid, hsame⟩
    rw [ht]
    rfl
  · exact ⟨s, rfl, hs, SamePdus.refl s⟩

/-- A report that has been accepted moves VT(A). -/
theorem acceptStatus_total (ackSn vtANew soStop : ℕ) (hs : s.SdusValid) (hvtA : s.vtA < 1024)
    (hsn : sn < 1024) :
    ∃ t, s.acceptStatus ackSn vtANew sn soStop = some t ∧ t.vtA = vtANew ∧ t.acked = s.acked := by
  have hsame := stopPoll_same ackSn s
  obtain ⟨t, ht, -, hsame'⟩ := confirmSdus_total (hs.stopPoll ackSn) (hsame.vtA_eq.symm ▸ hvtA) hsn soStop
  rw [acceptStatus, ht]
  exact ⟨_, rfl, rfl, hsame'.acked_eq.trans hsame.acked_eq⟩

end EdgeSlice.Rlc.AmTransmitter
