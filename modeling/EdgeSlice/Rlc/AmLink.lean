import EdgeSlice.Rlc.AmFeedback

/-! Both sides of AM, where PDUs are sent again as a whole, and a channel that loses, repeats and delays them. -/

namespace EdgeSlice.Rlc

open Function Segmentation

namespace AmPduInfo

theorem setPoll_b1 (fiFirst fiLast li poll poll' : Bool) (high : Fin 4) :
    let b1 (poll : Bool) := (0x80 : UInt8) ||| (if poll then (0x20 : UInt8) else 0) |||
      (UmEntity.framingInfo fiFirst fiLast <<< 3) ||| (if li then (0x04 : UInt8) else 0) ||| UInt8.ofNat high
    (if poll then b1 poll' ||| 0x20 else b1 poll' &&& 0xDF) = b1 poll := by
  revert fiFirst fiLast li poll poll' high
  decide

/-- A copy differs in the P field. -/
theorem setPoll_encodePdu {sn : ℕ} (hsn : sn < 1024) (poll poll' fiFirst : Bool) (f : Frame UInt8) :
    AmTransmitter.setPoll poll (encodePdu sn poll' fiFirst f) = encodePdu sn poll fiFirst f := by
  have hhigh : sn >>> 8 = sn / 256 := Nat.shiftRight_eq_div_pow sn 8
  rw [encodePdu, encodePdu, AmTransmitter.setPoll, AmTransmitter.pduB1, AmTransmitter.pduB1, hhigh]
  exact congrArg (· :: _) (setPoll_b1 fiFirst f.ends (f.complete.length > 0) poll poll' ⟨sn / 256, by omega⟩)

end AmPduInfo

namespace AmTransmitter

variable {s t u : AmTransmitter} {N : Set ℕ} {p : AmTxPdu} {pdu : Option Bytes} {sn fuel max now : ℕ}

section Retransmission

/-- The bytes are the PDU, with another poll. -/
def IsCopy (p : AmTxPdu) (bytes : Bytes) : Prop :=
  ∃ block poll, p.memBlock = some block ∧ bytes = setPoll poll (block.take p.headerAndPayloadSize)

theorem IsCopy.of_keeps {q : AmTxPdu} {bytes : Bytes} (h : p.Keeps q) (hq : IsCopy q bytes) : IsCopy p bytes := by
  obtain ⟨block, poll, hblock, rfl⟩ := hq
  rw [h.headerAndPayloadSize]
  rcases h.memBlock with hnone | heq
  · rw [hnone] at hblock
    cases hblock
  · exact ⟨block, poll, heq ▸ hblock, rfl⟩

/-- What is to be sent again fits the grant as a whole, or the grant is too small for a part of it. -/
def SendsWhole (s : AmTransmitter) : Prop :=
  ∀ i < rlcAmWindowSize, (s.txDataPduBuffer i).retransmit = true →
    (s.txDataPduBuffer i).headerAndPayloadSize ≤ s.nbBytesRequestedByMac ∨ s.nbBytesRequestedByMac < 5

instance (s : AmTransmitter) : Decidable s.SendsWhole := inferInstanceAs (Decidable (∀ i < _, _ → _))

/-- The same is to be sent again. -/
structure SameFlags (s t : AmTransmitter) : Prop where
  nbBytesRequestedByMac_eq : t.nbBytesRequestedByMac = s.nbBytesRequestedByMac
  retransmit_eq : ∀ i, (t.txDataPduBuffer i).retransmit = (s.txDataPduBuffer i).retransmit

theorem SameFlags.trans (h : s.SameFlags t) (h' : t.SameFlags u) : s.SameFlags u :=
  ⟨h'.1.trans h.1, fun i ↦ (h'.2 i).trans (h.2 i)⟩

theorem SameFlags.sendsWhole (h : s.SameFlags t) (hacks : s.Acks N t) (hs : s.SendsWhole) : t.SendsWhole := by
  intro i hi hflag
  rw [h.nbBytesRequestedByMac_eq, (hacks.keeps i).headerAndPayloadSize]
  exact hs i hi (h.retransmit_eq i ▸ hflag)

/-- A PDU is sent again, or it has been sent often enough, or the grant is too small. -/
theorem retransmitPdu_whole (hwhole : (s.pduOf sn).Undivided) (hpos : (s.pduOf sn).retxPayloadSize > 0)
    (hfits : (s.pduOf sn).headerAndPayloadSize ≤ s.nbBytesRequestedByMac ∨ s.nbBytesRequestedByMac < 5)
    (h : s.retransmitPdu max now sn = some (t, pdu)) :
    s.Acks ∅ t ∧ (pdu = none → s.SameFlags t) ∧ ∀ bytes ∈ pdu, IsCopy (s.pduOf sn) bytes := by
  have honly := retransmitPdu_only h
  have hall := hwhole.retx.resolve_left hpos.ne'
  have hmax {q : AmTxPdu} (hq : q = { s.pduOf sn with maxRetransmit := true }) (ht : s.setPdu sn q = t) :
      s.Acks ∅ t ∧ s.SameFlags t := by
    subst ht
    refine ⟨.setPdu honly rfl ?_ fun hack ↦ Or.inl ?_, rfl, fun i ↦ ?_⟩
    · rw [hq]
      exact ⟨Or.inr rfl, rfl, fun hp ↦ ⟨hp.nackSoStart, hp.retx⟩⟩
    · rwa [hq] at hack
    · rcases eq_or_ne i (sn % rlcAmWindowSize) with rfl | hne
      · refine (congrArg AmTxPdu.retransmit (update_self _ _ _)).trans ?_
        rw [hq]
        rfl
      · exact congrArg AmTxPdu.retransmit (update_of_ne hne _ _)
  simp only [retransmitPdu] at h
  split_ifs at h with hcopy hfew hsegment hfew
  · simp only [Option.bind_eq_bind, Option.bind_eq_some_iff] at h
    obtain ⟨bytes, hbytes, h⟩ := h
    obtain ⟨block, hblock, rfl⟩ := Option.map_eq_some_iff.mp hbytes
    cases h
    refine ⟨.setPdu honly (pduPolling_buffer _ _ _ _) ?_ fun hack ↦ Or.inl hack, fun hnone ↦ (by cases hnone), ?_⟩
    · exact ⟨Or.inr rfl, rfl, fun hp ↦ ⟨hp.nackSoStart, Or.inl (Nat.sub_self _)⟩⟩
    · intro bytes hbytes
      exact ⟨block, _, hblock, (Option.some.inj hbytes).symm⟩
  · cases h
    obtain ⟨hacks, hflags⟩ := hmax rfl rfl
    exact ⟨hacks, fun _ ↦ hflags, fun _ hbytes ↦ by cases hbytes⟩
  · exact absurd ⟨hall, hfits.resolve_right (not_lt.mpr hsegment)⟩ hcopy
  · cases h
    obtain ⟨hacks, hflags⟩ := hmax rfl rfl
    exact ⟨hacks, fun _ ↦ hflags, fun _ hbytes ↦ by cases hbytes⟩
  · cases h
    exact ⟨.refl _ _, fun _ ↦ ⟨rfl, fun _ ↦ rfl⟩, fun _ hbytes ↦ by cases hbytes⟩

/-- What is sent again is a PDU that is in transmission. -/
theorem retransmitFlagged_whole (hwhole : (s.pduOf sn).Undivided) (hfits : s.SendsWhole)
    (h : s.retransmitFlagged max now sn = some (t, pdu)) :
    s.Acks ∅ t ∧ (pdu = none → s.SameFlags t) ∧
      ∀ bytes ∈ pdu, (s.pduOf sn).sn = sn ∧ (s.pduOf sn).transmitted = true ∧ IsCopy (s.pduOf sn) bytes := by
  rw [retransmitFlagged] at h
  split_ifs at h with hflag hsent
  · obtain ⟨hsn, htx, hpos⟩ := hsent
    have hfits := hfits _ (Nat.mod_lt sn (by decide)) hflag.1
    obtain ⟨hacks, hflags, hcopy⟩ := retransmitPdu_whole hwhole hpos hfits h
    exact ⟨hacks, hflags, fun bytes hbytes ↦ ⟨hsn, htx, hcopy bytes hbytes⟩⟩
  · cases h
    exact ⟨.refl _ _, fun _ ↦ ⟨rfl, fun _ ↦ rfl⟩, fun _ hbytes ↦ by cases hbytes⟩

theorem amNextSn_lt (sn : ℕ) : amNextSn sn < 1024 := Nat.lt_of_le_of_lt Nat.and_le_right (by decide)

theorem retransmitLoop_whole (hwhole : ∀ i, (s.txDataPduBuffer i).Undivided) (hfits : s.SendsWhole) (hsn : sn < 1024)
    (h : s.retransmitLoop max now fuel sn = some (t, pdu)) :
    s.Acks ∅ t ∧ (pdu = none → s.SameFlags t) ∧ ∀ bytes ∈ pdu, ∃ sn < 1024,
      (s.pduOf sn).sn = sn ∧ (s.pduOf sn).transmitted = true ∧ IsCopy (s.pduOf sn) bytes := by
  induction fuel generalizing s sn with
  | zero => cases h
  | succ fuel ih =>
    rw [retransmitLoop] at h
    simp only [Option.bind_eq_bind, Option.bind_eq_some_iff] at h
    obtain ⟨⟨u, sent⟩, hfirst, hrest⟩ := h
    obtain ⟨hacks, hflags, hcopy⟩ := retransmitFlagged_whole (hwhole _) hfits hfirst
    dsimp only at hrest
    split_ifs at hrest with hsent hmore
    · cases hrest
      exact ⟨hacks, hflags, fun bytes hbytes ↦ ⟨sn, hsn, hcopy bytes hbytes⟩⟩
    · obtain rfl := Option.not_isSome_iff_eq_none.mp hsent
      have hflags := hflags rfl
      obtain ⟨hacks', hflags', hcopy'⟩ :=
        ih (fun i ↦ (hacks.keeps i).undivided (hwhole i)) (hflags.sendsWhole hacks hfits) (amNextSn_lt sn) hrest
      refine ⟨hacks.trans hacks', fun hnone ↦ hflags.trans (hflags' hnone), fun bytes hbytes ↦ ?_⟩
      obtain ⟨sn', hlt, hsn, htx, hcopy⟩ := hcopy' bytes hbytes
      have hpdu := hacks.only.pdus (sn' % rlcAmWindowSize)
      exact ⟨sn', hlt, hpdu.sn_eq.symm.trans hsn, hpdu.transmitted htx, hcopy.of_keeps (hacks.keeps _)⟩
    · obtain rfl := Option.not_isSome_iff_eq_none.mp hsent
      cases hrest
      exact ⟨hacks, hflags, fun bytes hbytes ↦ ⟨sn, hsn, hcopy bytes hbytes⟩⟩

theorem getRetransmission_whole (hwhole : ∀ i, (s.txDataPduBuffer i).Undivided) (hfits : s.SendsWhole)
    (hvtA : s.vtA < 1024) (h : s.getRetransmission max now = some (t, pdu)) :
    s.Acks ∅ t ∧ (pdu = none → s.SameFlags t) ∧ ∀ bytes ∈ pdu, ∃ sn < 1024,
      (s.pduOf sn).sn = sn ∧ (s.pduOf sn).transmitted = true ∧ IsCopy (s.pduOf sn) bytes := by
  rw [getRetransmission, getPduToRetransmit] at h
  split_ifs at h
  · exact retransmitLoop_whole hwhole hfits hvtA h
  · cases h
    exact ⟨.refl _ _, fun _ ↦ ⟨rfl, fun _ ↦ rfl⟩, fun _ hbytes ↦ by cases hbytes⟩

theorem pollRetransmitLoop_acks {snEnd : ℕ} (h : s.pollRetransmitLoop snEnd fuel sn = some t) : s.Acks ∅ t := by
  have honly := pollRetransmitLoop_only h
  induction fuel generalizing sn with
  | zero => cases h
  | succ fuel ih =>
    simp only [pollRetransmitLoop] at h
    split_ifs at h
    · cases h
      exact .setPdu honly rfl ⟨Or.inr rfl, rfl, fun hp ↦ ⟨hp.nackSoStart, Or.inr rfl⟩⟩ fun hack ↦ Or.inl hack
    · cases h
      exact .setPdu honly rfl ⟨Or.inr rfl, rfl, fun hp ↦ ⟨hp.nackSoStart, Or.inr rfl⟩⟩ fun hack ↦ Or.inl hack
    · exact ih h
    · cases h
      exact .refl _ _

/-- Nothing is acknowledged when t-PollRetransmit expires. -/
theorem checkTimerPollRetransmit_acks (h : s.checkTimerPollRetransmit now = some t) : s.Acks ∅ t := by
  rw [checkTimerPollRetransmit] at h
  split_ifs at h with hexpired
  · simp only [Option.bind_eq_bind, Option.bind_eq_some_iff, pollRetransmit] at h
    obtain ⟨u, hu, h⟩ := h
    cases h
    have htimer (timer : AmTimer) : s.Acks ∅ { s with tPollRetransmit := timer } :=
      .of_buffer (.of_timer timer s.pollSn s) rfl _
    have hpoll : u.Acks ∅ { u with forcePoll := true } := by
      apply Acks.of_buffer
      · exact ⟨rfl, rfl, rfl, rfl, rfl, rfl, rfl, rfl, rfl, rfl, fun _ ↦ .refl _⟩
      · rfl
    split_ifs at hu
    · exact ((htimer _).trans (pollRetransmitLoop_acks hu)).trans hpoll
    · cases hu
      exact (htimer _).trans hpoll
  · cases h
    exact .refl _ _

end Retransmission

end AmTransmitter

/-- What a slot keeps of a PDU that has just been built. -/
structure AmTxPdu.New (sn : ℕ) (bytes : Bytes) (p : AmTxPdu) : Prop where
  sn_eq : p.sn = sn
  ack_eq : p.ack = false
  stored : ∃ block, p.memBlock = some block ∧ block.take p.headerAndPayloadSize = bytes
  undivided : p.Undivided
  nackSoStart_eq : p.nackSoStart = 0
  holes_eq : p.holes = []

namespace AmTransmitter

open ByteMemory

variable {s t u : AmTransmitter} {w : List Bytes} {bytes : Bytes} {block : ℕ → UInt8} {f f' : AmFilling}
  {index fuel now payload size testNumLi : ℕ} {fiFirst : Bool} {sdu : AmTxSdu} {sdusIndex : List ℕ}

/-- Between `s` and `t` a PDU has been built, and put into the slot of VT(S). -/
structure Appends (bytes : Bytes) (s t : AmTransmitter) : Prop where
  vtA_eq : t.vtA = s.vtA
  vtMs_eq : t.vtMs = s.vtMs
  vtS_eq : t.vtS = amNextSn s.vtS
  buffer : t.txDataPduBuffer = update s.txDataPduBuffer (s.vtS % rlcAmWindowSize) (t.pduOf s.vtS)
  new : (t.pduOf s.vtS).New s.vtS bytes

/-- The slots from the current one on hold the SDUs that are not fully segmented, without a gap. -/
structure Queued (w : List Bytes) (s : AmTransmitter) : Prop where
  ring : RingQueue.Holds 1024 (fun i ↦ (s.inputSdus i).memBlock) s.currentSduIndex s.nextSduIndex 0 w
  nbSduNoSegmented_eq : s.nbSduNoSegmented = w.length

/-- What does not concern the SDUs. -/
structure SameSdus (s t : AmTransmitter) : Prop where
  inputSdus_eq : t.inputSdus = s.inputSdus
  currentSduIndex_eq : t.currentSduIndex = s.currentSduIndex
  nextSduIndex_eq : t.nextSduIndex = s.nextSduIndex
  nbSduNoSegmented_eq : t.nbSduNoSegmented = s.nbSduNoSegmented

theorem OnlyPdus.sameSdus (h : s.OnlyPdus t) : s.SameSdus t :=
  ⟨h.inputSdus_eq, h.currentSduIndex_eq, h.nextSduIndex_eq, h.nbSduNoSegmented_eq⟩

theorem SameSdus.txSdus_eq (h : s.SameSdus t) : t.queue = s.queue ∧ t.txSdus = s.txSdus := by
  have hqueue : t.queue = s.queue := by rw [queue, queue, h.inputSdus_eq, h.currentSduIndex_eq]
  exact ⟨hqueue, by rw [txSdus, txSdus, hqueue, h.inputSdus_eq]⟩

theorem sendPdu_appends (ht : s.sendPdu now fiFirst size sdusIndex f payload = some (t, bytes)) :
    s.Appends bytes t ∧ s.SameSdus t := by
  rw [sendPdu] at ht
  dsimp only at ht
  split_ifs at ht with hsize
  cases ht
  have hpoll := pduPolling_only now f.payloadSize true
    { s with sduBufferOccupancy := f.bufferOccupancy, vtS := amNextSn s.vtS }
  have hbuffer := pduPolling_buffer now f.payloadSize true
    { s with sduBufferOccupancy := f.bufferOccupancy, vtS := amNextSn s.vtS }
  generalize pduPolling now f.payloadSize true
    { s with sduBufferOccupancy := f.bufferOccupancy, vtS := amNextSn s.vtS } = polled at hpoll hbuffer ⊢
  obtain ⟨v, poll⟩ := polled
  dsimp only at hpoll hbuffer ⊢
  generalize store f.pdu 0 _ = pdu
  have hself (p : AmTxPdu) : (v.setPdu s.vtS p).pduOf s.vtS = p := update_self _ _ _
  refine ⟨⟨hpoll.vtA_eq, hpoll.vtMs_eq, hpoll.vtS_eq, ?_, ?_⟩, hpoll.inputSdus_eq, hpoll.currentSduIndex_eq,
    hpoll.nextSduIndex_eq, hpoll.nbSduNoSegmented_eq⟩
  · rw [hself]
    exact congrArg (update · _ _) hbuffer
  · rw [hself]
    refine ⟨rfl, rfl, ⟨_, rfl, ?_⟩, ⟨rfl, Or.inl rfl⟩, rfl, rfl⟩
    have hsplit : size = size - f.pduRemainingSize + (size - (size - f.pduRemainingSize)) := by omega
    have hload := load_add pdu 0 (size - f.pduRemainingSize) (size - (size - f.pduRemainingSize))
    rw [← hsplit] at hload
    rw [hload]
    exact List.take_left' (load_length _ _ _)

theorem Accepts.dataReq_eq (h : s.Accepts) (req : AmDataReq) :
    (∀ i, (s.dataReq req).inputSdus i = if i = s.nextSduIndex then .ofReq req else s.inputSdus i) ∧
      (s.dataReq req).currentSduIndex = s.currentSduIndex ∧
      (s.dataReq req).nextSduIndex = (s.nextSduIndex + 1) % 1024 ∧
      (s.dataReq req).nbSduNoSegmented = s.nbSduNoSegmented + 1 ∧
      (s.dataReq req).sduBufferOccupancy = s.sduBufferOccupancy + req.data.length := by
  have heq : s.dataReq req = { s with
      sduBufferOccupancy := s.sduBufferOccupancy + req.data.length
      nbSdu := s.nbSdu + 1
      nbSduNoSegmented := s.nbSduNoSegmented + 1
      nextSduIndex := (s.nextSduIndex + 1) % rlcAmSduControlBufferSize }.setSdu s.nextSduIndex (.ofReq req) :=
    if_pos h
  rw [heq]
  exact ⟨fun i ↦ update_apply _ _ _ _, rfl, rfl, rfl, rfl⟩

namespace Queued

theorem length_eq (h : Queued w s) : s.queue.length = w.length := by
  have hqueue : s.queue = (List.range w.length).map fun k ↦ (s.currentSduIndex + k) % 1024 := h.ring.takeWhile_eq
  rw [hqueue, List.length_map, List.length_range]

theorem of_sameSdus (h : Queued w s) (hsame : s.SameSdus t) : Queued w t where
  ring := by
    rw [hsame.inputSdus_eq, hsame.currentSduIndex_eq, hsame.nextSduIndex_eq]
    exact h.ring
  nbSduNoSegmented_eq := hsame.nbSduNoSegmented_eq.trans h.nbSduNoSegmented_eq

theorem setSdu (h : Queued w s) (hmem : sdu.memBlock = (s.inputSdus index).memBlock) :
    Queued w (s.setSdu index sdu) where
  ring := by
    refine h.ring.congr fun i _ ↦ ?_
    rcases eq_or_ne i index with rfl | hne
    · rw [setSdu_same, hmem]
    · rw [setSdu_other _ _ hne]
  nbSduNoSegmented_eq := h.nbSduNoSegmented_eq

theorem endSdu (h : Queued w s) (hmem : (s.inputSdus s.currentSduIndex).memBlock.isSome) : Queued w.tail s.endSdu := by
  obtain ⟨data, hdata⟩ := Option.isSome_iff_exists.mp hmem
  have hring := h.ring
  obtain ⟨-, rest, rfl⟩ := hring.head hdata
  have hcount := h.nbSduNoSegmented_eq
  rw [endSdu_eq hring.first_lt hmem]
  refine ⟨hring.pop.congr fun i _ ↦ ?_, ?_⟩
  · rcases eq_or_ne i s.currentSduIndex with rfl | hne
    · rw [update_self]
      exact congrArg AmTxSdu.memBlock (setSdu_same _ _ _)
    · rw [update_of_ne hne]
      exact congrArg AmTxSdu.memBlock (setSdu_other _ _ hne)
  · rw [List.length_cons] at hcount
    change s.nbSduNoSegmented - 1 = _
    rw [List.tail_cons]
    omega

theorem dataReq (h : Queued w s) (haccepts : s.Accepts) (req : AmDataReq) :
    Queued (w ++ [req.data]) (s.dataReq req) := by
  obtain ⟨hslot, hcurrent, hnext, hcount, -⟩ := haccepts.dataReq_eq req
  refine ⟨?_, ?_⟩
  · rw [hcurrent, hnext]
    refine (h.ring.push haccepts.2 req.data).congr fun i _ ↦ ?_
    rw [hslot]
    split_ifs with hi
    · rw [hi, update_self]
      rfl
    · rw [update_of_ne hi]
  · rw [hcount, h.nbSduNoSegmented_eq, List.length_append]
    rfl

theorem queue_dataReq (h : Queued w s) (haccepts : s.Accepts) (req : AmDataReq) :
    (s.dataReq req).queue = s.queue ++ [s.nextSduIndex] := by
  obtain ⟨-, hcurrent, -⟩ := haccepts.dataReq_eq req
  have hlast : (s.currentSduIndex + w.length) % 1024 = s.nextSduIndex := by
    have hlength := h.ring.length_eq
    have hfirst := h.ring.first_lt
    have hlt := h.ring.next_lt
    omega
  have hold : s.queue = (List.range w.length).map fun k ↦ (s.currentSduIndex + k) % 1024 := h.ring.takeWhile_eq
  have hall : (s.dataReq req).queue = _ := (h.dataReq haccepts req).ring.takeWhile_eq
  rw [hall, hold, hcurrent, List.length_append, List.length_singleton, List.range_succ, List.map_append,
    List.map_singleton, hlast]

theorem fillLoop (h : Queued w s) (ht : s.fillLoop testNumLi fuel f = some (f', t)) :
    s.OnlySdus t ∧ ∃ w', Queued w' t := by
  induction fuel generalizing s f w with
  | zero => cases ht
  | succ fuel ih =>
    rw [AmTransmitter.fillLoop] at ht
    dsimp only at ht
    split_ifs at ht with hmem hlarger hequal hsmaller hlimit
    · cases ht
      exact ⟨.setSdu _ _ _, w, h.setSdu rfl⟩
    · cases ht
      exact ⟨(pops_endSdu h.ring.first_lt hmem).only, _, h.endSdu hmem⟩
    · cases ht
      exact ⟨(pops_endSdu h.ring.first_lt hmem).only, _, h.endSdu hmem⟩
    · obtain ⟨honly, hqueued⟩ := ih (h.endSdu hmem) ht
      exact ⟨(pops_endSdu h.ring.first_lt hmem).only.trans honly, hqueued⟩
    · cases ht
      exact ⟨(pops_endSdu h.ring.first_lt hmem).only, _, h.endSdu hmem⟩
    · cases ht
      exact ⟨.refl _, w, h⟩

/-- A PDU is built from the SDUs at the head of the queue. -/
theorem segment10 (h : Queued w s) (ht : s.segment10 now block = some (t, some bytes)) :
    s.Appends bytes t ∧ ∃ w', Queued w' t := by
  rw [AmTransmitter.segment10] at ht
  dsimp only at ht
  split_ifs at ht with hempty
  · cases ht
  simp only [Option.bind_eq_bind, Option.bind_eq_some_iff] at ht
  obtain ⟨u, hu, ⟨f, v⟩, hv, ⟨x, pdu⟩, hx, ht⟩ := ht
  cases ht
  obtain ⟨nbPdus, rfl⟩ := listSdus_nbPdus hu
  have hlisted : Queued w { s with inputSdus := fun i ↦ { s.inputSdus i with nbPdus := nbPdus i } } :=
    ⟨h.ring, h.nbSduNoSegmented_eq⟩
  obtain ⟨honly, w', hqueued⟩ := hlisted.fillLoop hv
  obtain ⟨happends, hsame⟩ := sendPdu_appends hx
  refine ⟨?_, w', hqueued.of_sameSdus hsame⟩
  obtain ⟨_, _, _, _, _, rfl⟩ := honly
  exact ⟨happends.vtA_eq, happends.vtMs_eq, happends.vtS_eq, happends.buffer, happends.new⟩

end Queued

/-- The transmitter as an entity of unacknowledged mode has it, with the PDUs that it has sent. -/
def umSent (sent : List SentFrame) (s : AmTransmitter) : UmEntity :=
  { UmEntity.configured true with
    inputSdus := s.txSdus
    bufferOccupancy := s.sduBufferOccupancy
    vtUs := .ofNat sent.length }

/-- What the transmitter has made of the SDUs that were submitted. -/
structure Sends (submitted : List Bytes) (sent : List SentFrame) (s : AmTransmitter) : Prop where
  queued : ∃ w, Queued w s
  waits : ∀ i ∈ s.queue, (s.inputSdus i).Waits
  um : (s.umSent sent).Sends 5 rlcSduMaxSize submitted sent

namespace Sends

variable {submitted : List Bytes} {sent : List SentFrame} {pdu : Option Bytes} {req : AmDataReq}

theorem consistentQueue (h : s.Sends submitted sent) (hvtS : s.vtS < 1024) : s.ConsistentQueue := by
  obtain ⟨w, hqueued⟩ := h.queued
  have hsizes : s.txSdus.map (·.sduRemainingSize) = s.sizes := by
    rw [txSdus, sizes, List.map_map]
    exact List.map_congr_left fun i hi ↦ (h.waits i hi).tx_remaining
  refine ⟨hqueued.ring.first_lt, hvtS, h.waits, ?_, ?_⟩
  · have hoccupancy := h.um.consistent.bufferOccupancy
    rw [UmEntity.short, umSent] at hoccupancy
    dsimp only at hoccupancy
    rw [hoccupancy, hsizes]
  · rw [hqueued.nbSduNoSegmented_eq, hqueued.length_eq]

theorem same (h : s.Sends submitted sent) (hsame : s.SameSdus t)
    (hoccupancy : t.sduBufferOccupancy = s.sduBufferOccupancy) : t.Sends submitted sent := by
  obtain ⟨hqueue, htxSdus⟩ := hsame.txSdus_eq
  refine ⟨h.queued.imp fun _ hqueued ↦ hqueued.of_sameSdus hsame, ?_, ?_⟩
  · rw [hqueue, hsame.inputSdus_eq]
    exact h.waits
  · rw [umSent, htxSdus, hoccupancy]
    exact h.um

/-- An SDU is put behind the others. -/
theorem dataReq (h : s.Sends submitted sent) (haccepts : s.Accepts) (hsize : req.data.length < 2048) :
    (s.dataReq req).Sends (submitted ++ [req.data]) sent := by
  obtain ⟨w, hqueued⟩ := h.queued
  obtain ⟨hslot, -, -, -, hoccupancy⟩ := haccepts.dataReq_eq req
  have hqueue := hqueued.queue_dataReq haccepts req
  have hother (i : ℕ) (hi : i ∈ s.queue) : (s.dataReq req).inputSdus i = s.inputSdus i := by
    rw [hslot, if_neg]
    rintro rfl
    exact Option.not_isSome_iff_eq_none.mpr (Option.isNone_iff_eq_none.mp haccepts.1) (mem_queue hi).2
  have hself : (s.dataReq req).inputSdus s.nextSduIndex = .ofReq req := by
    rw [hslot, if_pos rfl]
  have hwaits : (AmTxSdu.ofReq req).Waits := ⟨rfl, Nat.zero_add _, List.length_pos_of_ne_nil req.data_ne_nil⟩
  have htx : (AmTxSdu.ofReq req).tx = .ofData req.data := by
    simp [AmTxSdu.tx, AmTxSdu.ofReq, AmTxSdu.zero, TxSdu.ofData]
  have hmap : (s.queue.map fun i ↦ ((s.dataReq req).inputSdus i).tx) = s.queue.map fun i ↦ (s.inputSdus i).tx :=
    List.map_congr_left fun i hi ↦ congrArg AmTxSdu.tx (hother i hi)
  have htxSdus : (s.dataReq req).txSdus = s.txSdus ++ [.ofData req.data] := by
    rw [txSdus, hqueue, List.map_append, List.map_singleton, hself, htx, hmap, txSdus]
  refine ⟨⟨_, hqueued.dataReq haccepts req⟩, ?_, ?_⟩
  · rw [hqueue]
    intro i hi
    rcases List.mem_append.mp hi with hi | hi
    · rw [hother i hi]
      exact h.waits i hi
    · rw [List.mem_singleton.mp hi, hself]
      exact hwaits
  · have hmax : req.data.length ≤ rlcSduMaxSize := hsize.le.trans (by decide)
    have hum := h.um.dataReq req.data_ne_nil ⟨hsize, hmax⟩
    rw [UmEntity.dataReq, umSent] at hum
    dsimp only at hum
    rw [umSent, htxSdus, hoccupancy]
    exact hum

/-- The PDU that a grant gets carries the next frame of the queue. -/
theorem segment10 (h : s.Sends submitted sent) (hvtS : s.vtS < 1024) (hnb : 3 ≤ s.nbBytesRequestedByMac)
    (hleaves : ∀ k, ¬s.LeavesBytes k) (hfew : ¬s.Reaches 128) (ht : s.segment10 now block = some (t, pdu)) :
    pdu = none ∧ t = s ∨ ∃ bytes p, pdu = some bytes ∧ t.Sends submitted (sent ++ [p]) ∧ s.Appends bytes t ∧
      (∃ poll, bytes = AmPduInfo.encodePdu s.vtS poll p.fiFirst p.frame) ∧
        (t.pduOf s.vtS).payloadSize = p.frame.payload.length ∧ bytes.length < rlcSduMaxSize := by
  have hconsistent := h.consistentQueue hvtS
  obtain ⟨w, hqueued⟩ := h.queued
  by_cases hne : s.queue = []
  · left
    rw [AmTransmitter.segment10] at ht
    rw [if_pos] at ht
    · cases ht
      exact ⟨rfl, rfl⟩
    · rw [hconsistent.occupancy, sizes, hne]
      exact Or.inl rfl
  right
  have hne' : s.um.inputSdus ≠ [] := by
    rw [um_inputSdus, ← List.length_pos_iff, txSdus_length]
    exact List.length_pos_iff.mpr hne
  obtain ⟨reduced, fr, us', hfound⟩ := hconsistent.um_consistent.found (by rw [um_nbBytesRequestedByMac]; omega) hne'
  have hcomplete : fr.complete.length ≤ 127 := by
    have hreaches := (hconsistent.reaches_iff hnb hne hfound 128).not.mp hfew
    omega
  obtain ⟨hlisted, hsize⟩ := hconsistent.of_segment10 hnb hne hfound hcomplete ht
  obtain ⟨t', bytes, hsegment, hcarries, hleft⟩ := hconsistent.segment10_eq now block hnb hne hfound hcomplete hlisted
    hsize
  obtain ⟨rfl, rfl⟩ := Prod.mk.inj (Option.some.inj (hsegment.symm.trans ht))
  obtain ⟨poll, spare, hspare, hpdu⟩ := hcarries.pdu_eq
  -- bytes behind the frame are those that the grant leaves
  have hnone : spare = [] := by
    rw [← List.length_eq_zero_iff, hspare]
    by_contra hpos
    refine hleaves fr.complete.length ((hconsistent.leavesBytes_iff hnb _).mpr ?_)
    exact (hfound.leavesBytes_iff hconsistent.um_consistent).mpr ⟨Nat.pos_of_ne_zero hpos, rfl⟩
  rw [hnone, List.append_nil] at hpdu
  have hinput : (s.umSent sent).inputSdus = s.txSdus := by rw [umSent]
  obtain ⟨u, us, hus⟩ := List.exists_cons_of_ne_nil (um_inputSdus s ▸ hne')
  obtain ⟨hmem, hpops, rfl, -⟩ := pops_of_txSdus hqueued.ring.first_lt hus
  obtain ⟨hremaining, hsegmented, htotal⟩ :=
    (h.waits s.currentSduIndex (by rw [hpops.queue_eq]; exact List.mem_cons_self)).tx_sizes
  have hpacks := hfound.packs
  rw [um_inputSdus, ← hinput] at hpacks
  have hum := h.um.send hpacks (hinput.trans hus) (hcomplete.trans (by decide)) 0
  rw [← hinput] at hus
  have hfirst : decide ((s.inputSdus s.currentSduIndex).tx.sduRemainingSize =
      (s.inputSdus s.currentSduIndex).tx.sduSize) = decide ((s.inputSdus s.currentSduIndex).sduSegmentedSize = 0) := by
    have hadd := (s.inputSdus s.currentSduIndex).tx.sizes_add
    refine decide_eq_decide.mpr ?_
    omega
  refine ⟨bytes, ⟨(s.inputSdus s.currentSduIndex).tx.sduRemainingSize = (s.inputSdus s.currentSduIndex).tx.sduSize, fr⟩,
    rfl, ⟨(hqueued.segment10 hsegment).2, hleft.waits, ?_⟩, (hqueued.segment10 hsegment).1, ⟨poll, ?_⟩,
    hcarries.payloadSize, ?_⟩
  · rw [umSent, hleft.txSdus_eq, hleft.occupancy, List.length_append, List.length_singleton]
    rw [umSent] at hum
    exact hum
  · rw [hpdu, hfirst]
  · have hdata := hfound.dataPduSize
    have hsizes := hconsistent.dataPduSize_eq (by omega)
    rw [hpdu, AmPduInfo.encodePdu_length]
    omega

end Sends

end AmTransmitter

namespace AmTransmitter

variable {s t : AmTransmitter} {req : AmDataReq}

/-- What does not concern the window. -/
structure SameWindow (s t : AmTransmitter) : Prop where
  vtA_eq : t.vtA = s.vtA
  vtS_eq : t.vtS = s.vtS
  vtMs_eq : t.vtMs = s.vtMs
  buffer : t.txDataPduBuffer = s.txDataPduBuffer

theorem SameWindow.windowKept (h : s.SameWindow t) (hs : s.WindowKept) : t.WindowKept := by
  have hoffset : t.offset t.vtS = s.offset s.vtS := by rw [offset, offset, h.vtA_eq, h.vtS_eq]
  have hpdu (sn : ℕ) : t.pduOf sn = s.pduOf sn := congrFun h.buffer _
  refine ⟨h.vtA_eq ▸ hs.vtA_lt, h.vtS_eq ▸ hs.vtS_lt, ?_, hoffset ▸ hs.le, fun d hd ↦ ?_, fun d hd ↦ ?_,
    fun d hd ↦ ?_, fun i ↦ ?_⟩
  · rw [h.vtMs_eq, h.vtA_eq]
    exact hs.vtMs_eq
  · rw [hpdu, h.vtA_eq]
    exact hs.sn_eq d (hoffset ▸ hd)
  · rw [hpdu, h.vtA_eq]
    exact hs.held d (hoffset ▸ hd)
  · rw [hpdu, h.vtA_eq]
    exact hs.stale d (hoffset ▸ hd)
  · rw [h.buffer]
    exact hs.bounded i

theorem sameWindow_dataReq (req : AmDataReq) (s : AmTransmitter) : s.SameWindow (s.dataReq req) := by
  rw [dataReq]
  split_ifs
  · exact ⟨rfl, rfl, rfl, rfl⟩
  · exact ⟨rfl, rfl, rfl, rfl⟩

end AmTransmitter

namespace AmTransmitter

variable {s t : AmTransmitter} {N : Set ℕ}

/-- The grant leaves no bytes behind the data of a PDU and has no place for more length indicators than are counted, and
what is to be sent again fits it as a whole. -/
structure Fitting (s : AmTransmitter) : Prop where
  no_bytes : ∀ k < s.sizes.length, ¬s.LeavesBytes k
  few : ¬s.Reaches 128
  whole : s.SendsWhole

instance (s : AmTransmitter) (k : ℕ) : Decidable (s.LeavesBytes k) := inferInstanceAs (Decidable (_ ∧ _ ∧ _))

instance (s : AmTransmitter) (k : ℕ) : Decidable (s.Reaches k) := inferInstanceAs (Decidable (_ ∧ _))

instance (s : AmTransmitter) : Decidable s.Fitting :=
  decidable_of_iff ((∀ k < s.sizes.length, ¬s.LeavesBytes k) ∧ ¬s.Reaches 128 ∧ s.SendsWhole)
    ⟨fun ⟨hbytes, hfew, hwhole⟩ ↦ ⟨hbytes, hfew, hwhole⟩, fun h ↦ ⟨h.no_bytes, h.few, h.whole⟩⟩

/-- Nothing has been sent again, and the grant is as large as before. -/
theorem Fitting.new (h : s.Fitting) (hacks : s.Acks N t) (hflags : s.SameFlags t) :
    (∀ k, ¬t.LeavesBytes k) ∧ ¬t.Reaches 128 := by
  have hsdus := hacks.only.sameSdus
  have hsizes : t.sizes = s.sizes := by rw [sizes, sizes, hsdus.txSdus_eq.1, hsdus.inputSdus_eq]
  refine ⟨fun k hk ↦ ?_, fun hreaches ↦ h.few ?_⟩
  · rw [LeavesBytes, hsizes, hflags.nbBytesRequestedByMac_eq] at hk
    exact h.no_bytes k (by omega) hk
  · rw [Reaches, hsizes, hflags.nbBytesRequestedByMac_eq] at hreaches
    exact hreaches

end AmTransmitter

namespace AmStream

open AmTransmitter

variable {l l' : AmStream} {s t : AmTransmitter} {N : Set ℕ} {a k n : ℕ} {bytes : Bytes}

/-- The bytes are a copy of the `k`th PDU. -/
def Encodes (sent : List SentFrame) (k : ℕ) (bytes : Bytes) : Prop :=
  ∃ p poll, sent[k]? = some p ∧ bytes = AmPduInfo.encodePdu (k % 1024) poll p.fiFirst p.frame

theorem Encodes.append {sent : List SentFrame} (h : Encodes sent k bytes) (more : List SentFrame) :
    Encodes (sent ++ more) k bytes := by
  obtain ⟨p, poll, hp, rfl⟩ := h
  refine ⟨p, poll, ?_, rfl⟩
  rw [List.getElem?_append_left (List.getElem?_eq_some_iff.mp hp).1]
  exact hp

theorem Encodes.setPoll {sent : List SentFrame} (h : Encodes sent k bytes) (poll : Bool) :
    Encodes sent k (AmTransmitter.setPoll poll bytes) := by
  obtain ⟨p, poll', hp, rfl⟩ := h
  exact ⟨p, poll, hp, AmPduInfo.setPoll_encodePdu (Nat.mod_lt _ (by decide)) _ _ _ _⟩

/-- The transmitter has built the PDUs of the stream, and those before VT(A) have arrived. -/
structure Follows (l : AmStream) (a : ℕ) (s : AmTransmitter) : Prop where
  window : s.WindowKept
  undivided : ∀ i, (s.txDataPduBuffer i).Undivided
  vtA_eq : s.vtA = a % 1024
  built : l.sent.length = a + s.offset s.vtS
  passed : ∀ k < a, k ∈ l.arrived

theorem Follows.acks (h : l.Follows a s) (hacks : s.Acks N t) :
    l.Follows a t where
  window := hacks.only.windowKept h.window
  undivided i := (hacks.keeps i).undivided (h.undivided i)
  vtA_eq := hacks.only.vtA_eq.trans h.vtA_eq
  built := by
    rw [offset, hacks.only.vtA_eq, hacks.only.vtS_eq]
    exact h.built
  passed := h.passed

/-- VT(A) moves over PDUs that have arrived. -/
theorem Follows.move (h : l.Follows a s) (han : a ≤ n) (hn : n ≤ l.sent.length)
    (hpassed : ∀ k < n, k ∈ l.arrived) (hreleased : ∀ d < n - a, (s.pduOf (snAt s.vtA d)).Released) :
    l.Follows n { s with vtA := snAt s.vtA (n - a), vtMs := (snAt s.vtA (n - a) + rlcAmWindowSize) &&& 0x3FF } := by
  have hbuilt := h.built
  have hle := h.window.le
  have hm : n - a ≤ s.offset s.vtS := by omega
  have hvtS : snAt s.vtA (s.offset s.vtS) = s.vtS := snAt_offset h.window.vtA_lt h.window.vtS_lt
  have hoffset : amDiffSn s.vtS (snAt s.vtA (n - a)) = s.offset s.vtS - (n - a) := by
    rw [← hvtS, amDiffSn_snAt_snAt hm (by omega), hvtS]
  refine ⟨h.window.move hm hreleased, h.undivided, ?_, ?_, hpassed⟩
  · change snAt s.vtA (n - a) = n % 1024
    rw [h.vtA_eq, snAt]
    omega
  · change l.sent.length = n + amDiffSn s.vtS (snAt s.vtA (n - a))
    omega

/-- The PDUs that have been built and have not been passed by VT(A) are kept until they have arrived. -/
structure Serves (l : AmStream) (a : ℕ) (s : AmTransmitter) : Prop extends l.Follows a s where
  acked : ∀ d < s.offset s.vtS, (s.pduOf (snAt s.vtA d)).ack = true → a + d ∈ l.arrived
  stored : ∀ d < s.offset s.vtS, ∀ block ∈ (s.pduOf (snAt s.vtA d)).memBlock,
    Encodes l.sent (a + d) (block.take (s.pduOf (snAt s.vtA d)).headerAndPayloadSize)

namespace Serves

theorem same (h : l.Serves a s) (hsame : s.SameWindow t) : l.Serves a t := by
  have hoffset : t.offset t.vtS = s.offset s.vtS := by rw [offset, offset, hsame.vtA_eq, hsame.vtS_eq]
  have hpdu (sn : ℕ) : t.pduOf sn = s.pduOf sn := congrFun hsame.buffer _
  refine ⟨⟨hsame.windowKept h.window, ?_, hsame.vtA_eq.trans h.vtA_eq, hoffset ▸ h.built, h.passed⟩,
    fun d hd ↦ ?_, fun d hd ↦ ?_⟩
  · rw [hsame.buffer]
    exact h.undivided
  · rw [hpdu, hsame.vtA_eq]
    exact h.acked d (hoffset ▸ hd)
  · rw [hpdu, hsame.vtA_eq]
    exact h.stored d (hoffset ▸ hd)

/-- Whatever arrives. -/
theorem mono (h : l.Serves a s) (hsent : l'.sent = l.sent) (harrived : ∀ k ∈ l.arrived, k ∈ l'.arrived) :
    l'.Serves a s where
  window := h.window
  undivided := h.undivided
  vtA_eq := h.vtA_eq
  built := hsent ▸ h.built
  passed k hk := harrived k (h.passed k hk)
  acked d hd hack := harrived _ (h.acked d hd hack)
  stored := hsent ▸ h.stored

/-- PDUs that have arrived are acknowledged. -/
theorem acks (h : l.Serves a s) (hacks : s.Acks N t)
    (hN : ∀ i ∈ N, ∃ k ∈ l.arrived, a ≤ k ∧ k < l.sent.length ∧ i = k % rlcAmWindowSize) : l.Serves a t := by
  have hoffset : t.offset t.vtS = s.offset s.vtS := by rw [offset, offset, hacks.only.vtA_eq, hacks.only.vtS_eq]
  have hle := h.window.le
  have hbuilt := h.built
  refine ⟨h.toFollows.acks hacks, fun d hd hack ↦ ?_, fun d hd block hblock ↦ ?_⟩
  · rw [hoffset] at hd
    rw [hacks.only.vtA_eq] at hack
    rcases hacks.ack _ hack with hold | hnew
    · exact h.acked d hd hold
    · obtain ⟨k, hk, hak, hlt, hslot⟩ := hN _ hnew
      rw [h.vtA_eq, snAt_slot_eq] at hslot
      have hkd : a + d = k := by
        rw [rlcAmWindowSize] at hslot
        omega
      exact hkd ▸ hk
  · rw [hoffset] at hd
    rw [hacks.only.vtA_eq] at hblock ⊢
    have hkeeps := hacks.keeps (snAt s.vtA d % rlcAmWindowSize)
    change Encodes _ _ (block.take (t.txDataPduBuffer (snAt s.vtA d % rlcAmWindowSize)).headerAndPayloadSize)
    rw [hkeeps.headerAndPayloadSize]
    refine h.stored d hd block ?_
    rcases hkeeps.memBlock with hnone | heq
    · rw [pduOf, hnone] at hblock
      cases hblock
    · rw [pduOf, heq] at hblock
      exact hblock

/-- VT(A) moves over PDUs that have arrived. -/
theorem move (h : l.Serves a s) (han : a ≤ n) (hn : n ≤ l.sent.length) (hpassed : ∀ k < n, k ∈ l.arrived)
    (hreleased : ∀ d < n - a, (s.pduOf (snAt s.vtA d)).Released) :
    l.Serves n { s with vtA := snAt s.vtA (n - a), vtMs := (snAt s.vtA (n - a) + rlcAmWindowSize) &&& 0x3FF } := by
  have hfollows := h.toFollows.move han hn hpassed hreleased
  have hbuilt := h.built
  have hbuilt' := hfollows.built
  have hsn (d : ℕ) : snAt (snAt s.vtA (n - a)) d = snAt s.vtA (n - a + d) := snAt_snAt _ _ _
  refine ⟨hfollows, fun d hd hack ↦ ?_, fun d hd block hblock ↦ ?_⟩
  · change (s.pduOf (snAt (snAt s.vtA (n - a)) d)).ack = true at hack
    rw [hsn] at hack
    have harrived := h.acked (n - a + d) (by omega) hack
    rwa [show a + (n - a + d) = n + d by omega] at harrived
  · change block ∈ (s.pduOf (snAt (snAt s.vtA (n - a)) d)).memBlock at hblock
    change Encodes _ _ (block.take (s.pduOf (snAt (snAt s.vtA (n - a)) d)).headerAndPayloadSize)
    rw [hsn] at hblock ⊢
    have hstored := h.stored (n - a + d) (by omega) block hblock
    rwa [show a + (n - a + d) = n + d by omega] at hstored

/-- A PDU that has just been built is kept. -/
theorem appends {p : SentFrame} {poll : Bool} (h : l.Serves a s) (hroom : s.offset s.vtS < 512)
    (happends : s.Appends bytes t) (hbytes : bytes = AmPduInfo.encodePdu s.vtS poll p.fiFirst p.frame)
    (hsize : (t.pduOf s.vtS).payloadSize < rlcSduMaxSize) :
    AmStream.Serves { l with sent := l.sent ++ [p] } a t ∧ s.vtS = l.sent.length % 1024 := by
  have hnew := happends.new
  have hbounded : (t.pduOf s.vtS).Bounded := by
    refine ⟨hsize, hnew.nackSoStart_eq ▸ Nat.zero_le _, fun hole hhole ↦ ?_⟩
    rw [hnew.holes_eq] at hhole
    cases hhole
  obtain ⟨block, hblock, htake⟩ := hnew.stored
  have hbuilt := h.built
  have hvtS : s.vtS = l.sent.length % 1024 := by
    have hlast : snAt s.vtA (s.offset s.vtS) = s.vtS := snAt_offset h.window.vtA_lt h.window.vtS_lt
    rw [← hlast, snAt, h.vtA_eq]
    omega
  obtain ⟨hwindow, hoffset, hbefore, hlast⟩ := h.window.append hroom hnew.sn_eq (hblock ▸ rfl) hbounded
    happends.vtA_eq happends.vtMs_eq happends.vtS_eq happends.buffer
  refine ⟨⟨⟨hwindow, fun i ↦ ?_, happends.vtA_eq.trans h.vtA_eq, ?_, h.passed⟩, fun d hd hack ↦ ?_,
    fun d hd block' hblock' ↦ ?_⟩, hvtS⟩
  · rw [happends.buffer, update_apply]
    split_ifs
    · exact hnew.undivided
    · exact h.undivided i
  · rw [hoffset, List.length_append, List.length_singleton, hbuilt, Nat.add_assoc]
  · rw [hoffset] at hd
    rw [happends.vtA_eq] at hack
    rcases Nat.lt_succ_iff_lt_or_eq.mp hd with hlt | rfl
    · rw [hbefore d hlt] at hack
      exact h.acked d hlt hack
    · rw [hlast, hnew.ack_eq] at hack
      cases hack
  · rw [hoffset] at hd
    rw [happends.vtA_eq] at hblock' ⊢
    rcases Nat.lt_succ_iff_lt_or_eq.mp hd with hlt | rfl
    · rw [hbefore d hlt] at hblock' ⊢
      exact (h.stored d hlt block' hblock').append [p]
    · rw [hlast] at hblock' ⊢
      obtain rfl := Option.some.inj (hblock.symm.trans hblock')
      rw [htake, ← hbuilt, hbytes, hvtS]
      exact ⟨p, poll, List.getElem?_concat_length, rfl⟩

/-- What is sent again is a PDU that has been built and has not been passed. -/
theorem copy {sn : ℕ} (h : l.Serves a s) (hlt : sn < 1024) (hsn : (s.pduOf sn).sn = sn)
    (htx : (s.pduOf sn).transmitted = true) (hcopy : IsCopy (s.pduOf sn) bytes) :
    ∃ k, a ≤ k ∧ k < l.sent.length ∧ Encodes l.sent k bytes := by
  obtain ⟨block, poll, hblock, rfl⟩ := hcopy
  have hbuilt := h.built
  obtain ⟨hin, -⟩ := h.window.lt_of_transmitted hlt htx hsn
  have hself : snAt s.vtA (s.offset sn) = sn := snAt_offset h.window.vtA_lt hlt
  have hstored := h.stored (s.offset sn) hin block
  rw [hself] at hstored
  exact ⟨a + s.offset sn, Nat.le_add_right _ _, by omega, (hstored hblock).setPoll poll⟩

/-- What a grant gets is a copy of a PDU that is kept, or a new PDU. -/
theorem getPdus {submitted : List Bytes} {max now : ℕ} {block : ℕ → UInt8} {pdu : Option Bytes} (h : l.Serves a s)
    (hsends : s.Sends submitted l.sent) (hfitting : s.Fitting) (ht : s.getPdus max now block = some (t, pdu)) :
    ((l.Serves a t ∧ t.Sends submitted l.sent ∧ t.vtS = s.vtS) ∧
      ∀ bytes ∈ pdu, ∃ k, a ≤ k ∧ k < l.sent.length ∧ Encodes l.sent k bytes) ∨
    ∃ p bytes, pdu = some bytes ∧ AmStream.Serves { l with sent := l.sent ++ [p] } a t ∧
      t.Sends submitted (l.sent ++ [p]) ∧ t.vtS = amNextSn s.vtS ∧ Encodes (l.sent ++ [p]) l.sent.length bytes ∧
        bytes.length < rlcSduMaxSize := by
  rw [AmTransmitter.getPdus] at ht
  simp only [Option.bind_eq_bind, Option.bind_eq_some_iff] at ht
  obtain ⟨⟨u, again⟩, hu, ht⟩ := ht
  obtain ⟨hacks, hflags, hcopy⟩ := getRetransmission_whole h.undivided hfitting.whole h.window.vtA_lt hu
  have hserves := h.acks hacks fun i hi ↦ absurd hi (Set.notMem_empty i)
  have hkept := hsends.same hacks.only.sameSdus hacks.only.sduBufferOccupancy_eq
  have hvtS := hacks.only.vtS_eq
  dsimp only at ht
  split_ifs at ht with hsent hnew
  · cases ht
    refine Or.inl ⟨⟨hserves, hkept, hvtS⟩, fun bytes hbytes ↦ ?_⟩
    obtain ⟨sn, hlt, hsn, htx, hbytes⟩ := hcopy bytes hbytes
    exact h.copy hlt hsn htx hbytes
  · obtain ⟨hbytes, hfew⟩ := hfitting.new hacks (hflags (Option.not_isSome_iff_eq_none.mp hsent))
    have hroom : u.offset u.vtS < 512 := by
      have hle := hserves.window.le
      have hlast : snAt u.vtA (u.offset u.vtS) = u.vtS :=
        snAt_offset hserves.window.vtA_lt hserves.window.vtS_lt
      have hne : u.offset u.vtS ≠ 512 := by
        intro heq
        rw [heq, ← hserves.window.vtMs_eq] at hlast
        exact hnew.2.2 hlast.symm
      omega
    rcases hkept.segment10 hserves.window.vtS_lt (by omega) hbytes hfew ht with
      ⟨rfl, rfl⟩ | ⟨bytes, p, rfl, hsends', happends, ⟨poll, hpdu⟩, hpayload, hsize⟩
    · exact Or.inl ⟨⟨hserves, hkept, hvtS⟩, fun _ hnone ↦ by cases hnone⟩
    · have hlength := congrArg List.length hpdu
      rw [AmPduInfo.encodePdu_length] at hlength
      obtain ⟨hserves', hnumber⟩ := hserves.appends hroom happends hpdu (by omega)
      rw [hnumber] at hpdu
      exact Or.inr ⟨p, bytes, rfl, hserves', hsends', hvtS ▸ happends.vtS_eq,
        ⟨p, poll, List.getElem?_concat_length, hpdu⟩, hsize⟩
  · cases ht
    exact Or.inl ⟨⟨hserves, hkept, hvtS⟩, fun _ hnone ↦ by cases hnone⟩

end Serves

variable {sent : List SentFrame}

/-- The receiver reads the lowest bits of the number. -/
theorem InStep.ofPdu (h : l.InStep) (hbytes : Encodes l.sent k bytes) :
    ∃ p poll tb, l.sent[k]? = some p ∧ bytes = AmPduInfo.encodePdu (k % 1024) poll p.fiFirst p.frame ∧
      AmRxBlock.ofPdu bytes = some tb ∧ tb.sn = k % 1024 := by
  obtain ⟨p, poll, hp, rfl⟩ := hbytes
  have hfits := h.fit k p hp
  have hsize := h.sizes p (List.mem_of_getElem? hp)
  obtain ⟨tb, htb, hsn, -⟩ := AmRxBlock.ofPdu_encodePdu poll p.fiFirst (Nat.mod_lt k (by decide))
    (fun segment hsegment ↦ (hfits.segments segment hsegment).2) hfits.few
    (by rw [AmPduInfo.encodePdu_length]; exact hsize)
  exact ⟨p, poll, tb, hp, rfl, htb, hsn⟩

/-- A copy of a PDU arrives. -/
theorem InStep.deliver (h : l.InStep) (hbytes : Encodes l.sent k bytes)
    (hlow : l.receiver.reassembled.length ≤ k + rlcAmWindowSize)
    (hhigh : k < l.receiver.reassembled.length + rlcAmWindowSize) (now : ℕ) :
    ∃ tb receiver, AmRxBlock.ofPdu bytes = some tb ∧
      AmRxEntity.receiveProcessDataPdu now tb l.receiver = some receiver ∧
      AmStream.InStep { l with arrived := k :: l.arrived, receiver := receiver } := by
  obtain ⟨p, poll, tb, hp, rfl, htb, -⟩ := h.ofPdu hbytes
  obtain ⟨l', hl', hstep⟩ := h.handle (x := .deliver now k poll)
    ⟨(List.getElem?_eq_some_iff.mp hp).1, hlow, hhigh⟩
  rw [AmStream.handle, hp] at hl'
  simp only [Option.bind_eq_bind, Option.bind_some, htb] at hl'
  obtain ⟨receiver, hreceiver, hl'⟩ := Option.bind_eq_some_iff.mp hl'
  cases hl'
  exact ⟨tb, receiver, htb, hreceiver, hstep⟩

end AmStream

/-- A transmitting entity and a receiving one, with the SDUs that were accepted and what is on its way between them:
PDUs with their numbers, and STATUS PDUs with the number of the PDU that was missing first. -/
structure AmLink where
  maxRetxThreshold : ℕ
  sender : AmTransmitter
  submitted : List Bytes
  built : ℕ
  wire : List (ℕ × Bytes)
  reports : List (ℕ × (ℕ → UInt8) × ℕ)
  arrived : List ℕ
  receiver : AmRxEntity

/-- PDUs and reports may be delivered more than once, after later ones, or never. -/
inductive AmLinkEvent
  | submit (req : AmDataReq)
  | grant (now nbBytes : ℕ) (block : ℕ → UInt8)
  | deliver (now i : ℕ)
  | checkTimerReordering (now : ℕ)
  | report (nbBytes : ℕ)
  | deliverReport (i : ℕ)
  | checkTimerPollRetransmit (now : ℕ)

namespace AmLink

open AmTransmitter

/-- The number of a PDU, where `built` PDUs have been built and VT(S) is `vtS`. -/
def numberOf (built vtS : ℕ) (pdu : Bytes) : ℕ :=
  match AmRxBlock.ofPdu pdu with
  | some tb => built - amDiffSn vtS tb.sn
  | none => 0

/-- `none` if an assertion fails. -/
def handle : AmLinkEvent → AmLink → Option AmLink
  | .submit req, l =>
    some { l with
      sender := l.sender.dataReq req
      submitted := if l.sender.Accepts then l.submitted ++ [req.data] else l.submitted }
  | .grant now nbBytes block, l => do
    let (sender, pdu) ←
      getPdus l.maxRetxThreshold now block { l.sender with nbBytesRequestedByMac := nbBytes }
    let built := l.built + amDiffSn sender.vtS l.sender.vtS
    return { l with
      sender := sender
      built := built
      wire := l.wire ++ pdu.toList.map fun pdu ↦ (numberOf built sender.vtS pdu, pdu) }
  | .deliver now i, l => do
    let (k, pdu) ← l.wire[i]?
    let tb ← AmRxBlock.ofPdu pdu
    let receiver ← AmRxEntity.receiveProcessDataPdu now tb l.receiver
    return { l with arrived := k :: l.arrived, receiver := receiver }
  | .checkTimerReordering now, l => do
    let receiver ← AmRxEntity.checkTimerReordering now l.receiver
    return { l with receiver := receiver }
  | .report nbBytes, l => do
    let (_, info) ← (l.receiver.toReceiver nbBytes).sendStatusPdu
    return { l with
      reports := l.reports ++ [(l.receiver.reassembled.length, ControlPduInfo.writeStatusPdu (fun _ ↦ 0) info)] }
  | .deliverReport i, l => do
    let (_, data, size) ← l.reports[i]?
    let sender ← l.sender.receiveProcessControlPdu (ControlPduInfo.getControlPduInfos data size).1.toOption
    return { l with sender := sender }
  | .checkTimerPollRetransmit now, l => do
    let sender ← l.sender.checkTimerPollRetransmit now
    return { l with sender := sender }

/-- The number of PDUs that VT(A) has passed. -/
def passed (l : AmLink) : ℕ := l.built - l.sender.offset l.sender.vtS

/-- An SDU fits a length indicator, a PDU is not overtaken by the receiver's window and a report not by VT(A). -/
def Allowed (l : AmLink) : AmLinkEvent → Prop
  | .submit req => req.data.length < 2048
  | .grant _ nbBytes _ => Fitting { l.sender with nbBytesRequestedByMac := nbBytes }
  | .deliver _ i => ∀ x ∈ l.wire[i]?, l.receiver.reassembled.length ≤ x.1 + rlcAmWindowSize
  | .report nbBytes => 2 ≤ nbBytes
  | .deliverReport i => ∀ x ∈ l.reports[i]?, l.passed ≤ x.1
  | .checkTimerReordering _ => True
  | .checkTimerPollRetransmit _ => True

instance (l : AmLink) : ∀ x, Decidable (l.Allowed x)
  | .submit _ => inferInstanceAs (Decidable (_ < _))
  | .grant _ _ _ => inferInstanceAs (Decidable (Fitting _))
  | .deliver _ _ => inferInstanceAs (Decidable (∀ x ∈ _, _))
  | .report _ => inferInstanceAs (Decidable (_ ≤ _))
  | .deliverReport _ => inferInstanceAs (Decidable (∀ x ∈ _, _))
  | .checkTimerReordering _ => inferInstanceAs (Decidable True)
  | .checkTimerPollRetransmit _ => inferInstanceAs (Decidable True)

/-- What the receiver does. -/
def Receives (l : AmLink) : AmLinkEvent → Prop
  | .deliver _ i => i < l.wire.length
  | .checkTimerReordering _ | .report _ => True
  | .submit _ | .grant _ _ _ | .deliverReport _ | .checkTimerPollRetransmit _ => False

def start (maxRetxThreshold pollPdu pollByte pollMs reorderingMs : ℕ) : AmLink :=
  ⟨maxRetxThreshold, .start pollPdu pollByte pollMs, [], 0, [], [], [], .init reorderingMs⟩

/-- What the receiver has got of the PDUs `sent`. -/
def stream (sent : List SentFrame) (l : AmLink) : AmStream := ⟨sent, l.arrived, l.receiver⟩

def dataInd (l : AmLink) : Option (List Bytes) := (l.stream []).dataInd

variable {l l' : AmLink} {sent : List SentFrame} {x : AmLinkEvent}

/-- A report that has been made some time ago. -/
def Reported (s : AmStream) (x : ℕ × (ℕ → UInt8) × ℕ) : Prop :=
  ∃ info arrived built c ds, (ControlPduInfo.getControlPduInfos x.2.1 x.2.2).1 = .ok info ∧
    info.Reports arrived built x.1 c ds ∧ (∀ k ∈ arrived, k ∈ s.arrived) ∧ built ≤ s.sent.length ∧
      ∀ k < x.1, k ∈ s.arrived

theorem Reported.mono {s s' : AmStream} {x : ℕ × (ℕ → UInt8) × ℕ} (h : Reported s x)
    (harrived : ∀ k ∈ s.arrived, k ∈ s'.arrived) (hsent : s.sent.length ≤ s'.sent.length) : Reported s' x := by
  obtain ⟨info, arrived, built, c, ds, hread, hreports, hmem, hbuilt, hpassed⟩ := h
  exact ⟨info, arrived, built, c, ds, hread, hreports, fun k hk ↦ harrived k (hmem k hk), hbuilt.trans hsent,
    fun k hk ↦ harrived k (hpassed k hk)⟩

/-- The two sides and what is between them are about the same PDUs. -/
structure InStep (sent : List SentFrame) (l : AmLink) : Prop where
  stream : (l.stream sent).InStep
  sends : l.sender.Sends l.submitted sent
  serves : (l.stream sent).Serves l.passed l.sender
  built : l.built = sent.length
  wire : ∀ x ∈ l.wire, AmStream.Encodes sent x.1 x.2
  reports : ∀ x ∈ l.reports, Reported (l.stream sent) x

namespace InStep

theorem of_serves {a : ℕ} (hstream : (l.stream sent).InStep) (hsends : l.sender.Sends l.submitted sent)
    (hserves : (l.stream sent).Serves a l.sender) (hbuilt : l.built = sent.length)
    (hwire : ∀ x ∈ l.wire, AmStream.Encodes sent x.1 x.2) (hreports : ∀ x ∈ l.reports, Reported (l.stream sent) x) :
    l.InStep sent := by
  have heq : sent.length = a + l.sender.offset l.sender.vtS := hserves.built
  have hpassed : l.passed = a := by
    rw [passed, hbuilt, heq]
    omega
  exact ⟨hstream, hsends, hpassed ▸ hserves, hbuilt, hwire, hreports⟩

/-- VT(A) is not beyond what the receiver has handed on. -/
theorem passed_le (h : l.InStep sent) : l.passed ≤ l.receiver.reassembled.length := by
  refine Nat.le_of_not_lt fun hlt ↦ ?_
  exact h.stream.inOrder.length_not_mem (h.serves.passed _ hlt)

theorem submit (h : l.InStep sent) {req : AmDataReq} (hsize : req.data.length < 2048)
    (hl : handle (.submit req) l = some l') : l'.InStep sent := by
  obtain rfl := Option.some.inj hl
  have hserves := h.serves.same (sameWindow_dataReq req l.sender)
  have hsends : (l.sender.dataReq req).Sends
      (if l.sender.Accepts then l.submitted ++ [req.data] else l.submitted) sent := by
    split_ifs with haccepts
    · exact h.sends.dataReq haccepts hsize
    · rw [show l.sender.dataReq req = l.sender from if_neg haccepts]
      exact h.sends
  exact of_serves h.stream hsends hserves h.built h.wire h.reports

/-- The number of a PDU that is sent is told from its SN. -/
theorem numberOf_eq {a k : ℕ} {bytes : Bytes} {t : AmTransmitter} (hstream : (l.stream sent).InStep)
    (hserves : (l.stream sent).Serves a t) (hbytes : AmStream.Encodes sent k bytes) (hak : a ≤ k)
    (hk : k < sent.length) : numberOf sent.length t.vtS bytes = k := by
  obtain ⟨p, poll, tb, -, -, htb, hsn⟩ := hstream.ofPdu hbytes
  have hbuilt : sent.length = a + t.offset t.vtS := hserves.built
  have hle := hserves.window.le
  have hvtS : t.vtS = sent.length % 1024 := by
    have hlast : snAt t.vtA (t.offset t.vtS) = t.vtS := snAt_offset hserves.window.vtA_lt hserves.window.vtS_lt
    rw [← hlast, snAt, hserves.vtA_eq]
    omega
  rw [numberOf, htb]
  dsimp only
  rw [hsn, amDiffSn_eq, hvtS]
  omega

theorem grant (h : l.InStep sent) {now nbBytes : ℕ} {block : ℕ → UInt8}
    (hfitting : Fitting { l.sender with nbBytesRequestedByMac := nbBytes })
    (hl : handle (.grant now nbBytes block) l = some l') : ∃ more, l'.InStep (sent ++ more) := by
  rw [AmLink.handle] at hl
  simp only [Option.bind_eq_bind, Option.bind_eq_some_iff] at hl
  obtain ⟨⟨t, pdu⟩, hpdus, hl⟩ := hl
  cases hl
  have hserves : (l.stream sent).Serves l.passed { l.sender with nbBytesRequestedByMac := nbBytes } :=
    h.serves.same ⟨rfl, rfl, rfl, rfl⟩
  have hsends : Sends l.submitted sent { l.sender with nbBytesRequestedByMac := nbBytes } :=
    h.sends.same ⟨rfl, rfl, rfl, rfl⟩ rfl
  rcases hserves.getPdus hsends hfitting hpdus with
    ⟨⟨hserves', hsends', hvtS⟩, hcopies⟩ | ⟨p, bytes, rfl, hserves', hsends', hvtS, hbytes, hsize⟩
  · refine ⟨[], ?_⟩
    have hzero : amDiffSn t.vtS l.sender.vtS = 0 := by
      rw [show t.vtS = l.sender.vtS from hvtS, amDiffSn_eq]
      omega
    rw [List.append_nil]
    refine of_serves (a := l.passed) h.stream hsends' hserves' ?_ (fun x hx ↦ ?_) h.reports
    · rw [hzero]
      exact h.built
    · rcases List.mem_append.mp hx with hx | hx
      · exact h.wire x hx
      · obtain ⟨bytes, hbytes, rfl⟩ := List.mem_map.mp hx
        obtain ⟨k, hak, hk, hcopy⟩ := hcopies bytes (Option.mem_toList.mp hbytes)
        have hnumber := numberOf_eq h.stream hserves' hcopy hak hk
        dsimp only
        rw [hzero, Nat.add_zero, h.built, hnumber]
        exact hcopy
  · refine ⟨[p], ?_⟩
    change Sends l.submitted (sent ++ [p]) t at hsends'
    change AmStream.Encodes (sent ++ [p]) sent.length bytes at hbytes
    have hone : amDiffSn t.vtS l.sender.vtS = 1 := by
      have hlt := h.serves.window.vtS_lt
      have hnext : t.vtS = (l.sender.vtS + 1) % 1024 := hvtS.trans (Nat.and_two_pow_sub_one_eq_mod _ 10)
      rw [hnext, amDiffSn_eq]
      omega
    have hlength : (sent ++ [p]).length = sent.length + 1 := by rw [List.length_append, List.length_singleton]
    have hfits : p.Fits (assemble (sent.map (·.frame))).2 rlcSduMaxSize := by
      have hfit := hsends'.um.fit sent.length p List.getElem?_concat_length
      rw [UmEntity.framesTo_append le_rfl, UmEntity.framesTo_length] at hfit
      exact hfit
    have hbytesLength : 2 + (lisSize p.frame.complete.length + p.frame.payload.length) < 2 ^ 15 := by
      obtain ⟨q, poll, hq, rfl⟩ := hbytes
      obtain rfl := Option.some.inj (List.getElem?_concat_length.symm.trans hq)
      rw [AmPduInfo.encodePdu_length] at hsize
      exact hsize.trans (by decide)
    obtain ⟨s', hs', hstream⟩ := h.stream.handle (x := .send p) ⟨hfits, hbytesLength⟩
    cases hs'
    refine of_serves (a := l.passed) hstream hsends' hserves' ?_ (fun x hx ↦ ?_) fun x hx ↦ ?_
    · rw [hone, hlength, h.built]
    · rcases List.mem_append.mp hx with hx | hx
      · exact (h.wire x hx).append [p]
      · obtain ⟨bytes', hbytes', rfl⟩ := List.mem_map.mp hx
        obtain rfl := Option.some.inj (Option.mem_toList.mp hbytes')
        have hle : l.passed ≤ sent.length := by
          rw [← h.built]
          exact Nat.sub_le _ _
        have hnumber : numberOf (sent ++ [p]).length t.vtS bytes = sent.length :=
          numberOf_eq (l := l) hstream hserves' hbytes hle (hlength ▸ Nat.lt_succ_self _)
        rw [hlength] at hnumber
        dsimp only
        rw [hone, h.built, hnumber]
        exact hbytes
    · refine (h.reports x hx).mono (fun k hk ↦ hk) ?_
      change sent.length ≤ (sent ++ [p]).length
      omega

/-- The window of the transmitter keeps its PDUs within the receiver's. -/
theorem arrives (h : l.InStep sent) {k : ℕ} {bytes : Bytes} (hbytes : AmStream.Encodes sent k bytes) :
    k < l.receiver.reassembled.length + rlcAmWindowSize := by
  have hk : k < sent.length := by
    obtain ⟨p, poll, hp, -⟩ := hbytes
    exact (List.getElem?_eq_some_iff.mp hp).1
  have hbuilt : sent.length = l.passed + l.sender.offset l.sender.vtS := h.serves.built
  have hle := h.serves.window.le
  have hpassed := h.passed_le
  rw [rlcAmWindowSize]
  omega

theorem deliver (h : l.InStep sent) {now i : ℕ} (hallowed : l.Allowed (.deliver now i))
    (hl : handle (.deliver now i) l = some l') : l'.InStep sent := by
  rw [AmLink.handle] at hl
  simp only [Option.bind_eq_bind, Option.bind_eq_some_iff] at hl
  obtain ⟨⟨k, pdu⟩, hx, tb, htb, receiver, hreceive, hl⟩ := hl
  cases hl
  have hbytes := h.wire _ (List.mem_of_getElem? hx)
  obtain ⟨tb', receiver', htb', hreceive', hstream⟩ :=
    h.stream.deliver hbytes (hallowed _ hx) (h.arrives hbytes) now
  obtain rfl := Option.some.inj (htb.symm.trans htb')
  obtain rfl := Option.some.inj (hreceive.symm.trans hreceive')
  have hmem (j : ℕ) (hj : j ∈ l.arrived) : j ∈ k :: l.arrived := List.mem_cons_of_mem _ hj
  exact of_serves hstream h.sends (h.serves.mono rfl hmem) h.built h.wire fun x hx ↦
    (h.reports x hx).mono hmem le_rfl

theorem checkTimerReordering (h : l.InStep sent) {now : ℕ} (hl : handle (.checkTimerReordering now) l = some l') :
    l'.InStep sent := by
  rw [AmLink.handle] at hl
  simp only [Option.bind_eq_bind, Option.bind_eq_some_iff] at hl
  obtain ⟨receiver, hcheck, hl⟩ := hl
  cases hl
  obtain ⟨receiver', hcheck', hinOrder⟩ := h.stream.inOrder.timer now
  obtain rfl := Option.some.inj (hcheck.symm.trans hcheck')
  have hmem (j : ℕ) (hj : j ∈ l.arrived) : j ∈ l.arrived := hj
  exact of_serves ⟨h.stream.fit, h.stream.sizes, hinOrder⟩ h.sends (h.serves.mono rfl hmem) h.built h.wire fun x hx ↦
    (h.reports x hx).mono hmem le_rfl

theorem report (h : l.InStep sent) {nbBytes : ℕ} (hnb : 2 ≤ nbBytes)
    (hl : handle (.report nbBytes) l = some l') : l'.InStep sent := by
  rw [AmLink.handle] at hl
  simp only [Option.bind_eq_bind, Option.bind_eq_some_iff] at hl
  obtain ⟨⟨e', info⟩, hsend, hl⟩ := hl
  cases hl
  obtain ⟨e₁, info₁, info', c, ds, hsend', hread, hreports⟩ := h.stream.report hnb
  obtain ⟨rfl, rfl⟩ := Prod.mk.inj (Option.some.inj (hsend'.symm.trans hsend))
  refine of_serves h.stream h.sends h.serves h.built h.wire fun x hx ↦ ?_
  rcases List.mem_append.mp hx with hx | hx
  · exact h.reports x hx
  · obtain rfl := List.mem_singleton.mp hx
    exact ⟨info', l.arrived, sent.length, c, ds, hread, hreports, fun _ hk ↦ hk, le_rfl,
      fun k hk ↦ h.stream.inOrder.mem_of_lt hk⟩

theorem deliverReport (h : l.InStep sent) {i : ℕ} (hallowed : l.Allowed (.deliverReport i))
    (hl : handle (.deliverReport i) l = some l') : l'.InStep sent := by
  rw [AmLink.handle] at hl
  simp only [Option.bind_eq_bind, Option.bind_eq_some_iff] at hl
  obtain ⟨⟨n, data, size⟩, hx, t, ht, hl⟩ := hl
  cases hl
  obtain ⟨info, arrived, built, c, ds, hread, hreports, hmem, hbuilt, hpassed⟩ := h.reports _ (List.mem_of_getElem? hx)
  dsimp only at hread hreports hpassed
  rw [hread] at ht
  have han : l.passed ≤ n := hallowed _ hx
  have hle : n + c ≤ sent.length := hreports.le.trans hbuilt
  have htotal : sent.length = l.passed + l.sender.offset l.sender.vtS := h.serves.built
  obtain ⟨u, hacks, hmoved⟩ := receive_reports h.serves.window h.serves.undivided h.serves.vtA_eq han
    (hbuilt.trans htotal.le) hreports ht
  have hserves := h.serves.acks hacks fun i hi ↦ by
    obtain ⟨k, hak, hk, harrived, rfl⟩ := hi
    exact ⟨k, harrived.elim (hpassed k) (hmem k), hak, hk.trans_le hle, rfl⟩
  have hsends := h.sends.same hacks.only.sameSdus hacks.only.sduBufferOccupancy_eq
  rcases hmoved with rfl | ⟨rfl, hreleased⟩
  · exact of_serves h.stream hsends hserves h.built h.wire h.reports
  · have hn : n ≤ (l.stream sent).sent.length := (Nat.le_add_right n c).trans hle
    exact of_serves h.stream (hsends.same ⟨rfl, rfl, rfl, rfl⟩ rfl) (hserves.move han hn hpassed hreleased) h.built
      h.wire h.reports

theorem checkTimerPollRetransmit (h : l.InStep sent) {now : ℕ}
    (hl : handle (.checkTimerPollRetransmit now) l = some l') : l'.InStep sent := by
  rw [AmLink.handle] at hl
  simp only [Option.bind_eq_bind, Option.bind_eq_some_iff] at hl
  obtain ⟨t, ht, hl⟩ := hl
  cases hl
  have hacks := checkTimerPollRetransmit_acks ht
  exact of_serves h.stream (h.sends.same hacks.only.sameSdus hacks.only.sduBufferOccupancy_eq)
    (h.serves.acks hacks fun i hi ↦ absurd hi (Set.notMem_empty i)) h.built h.wire h.reports

/-- Each event that is allowed keeps the two sides in step. -/
theorem handle (h : l.InStep sent) (hallowed : l.Allowed x) (hl : AmLink.handle x l = some l') :
    ∃ more, l'.InStep (sent ++ more) := by
  have hnone {l' : AmLink} (h : l'.InStep sent) : ∃ more, l'.InStep (sent ++ more) :=
    ⟨[], (List.append_nil sent).symm ▸ h⟩
  cases x with
  | submit req => exact hnone (h.submit hallowed hl)
  | grant now nbBytes block => exact h.grant hallowed hl
  | deliver now i => exact hnone (h.deliver hallowed hl)
  | checkTimerReordering now => exact hnone (h.checkTimerReordering hl)
  | report nbBytes => exact hnone (h.report hallowed hl)
  | deliverReport i => exact hnone (h.deliverReport hallowed hl)
  | checkTimerPollRetransmit now => exact hnone (h.checkTimerPollRetransmit hl)

/-- No assertion of the receiver fails. -/
theorem receives (h : l.InStep sent) (hallowed : l.Allowed x) (hx : l.Receives x) :
    ∃ l', AmLink.handle x l = some l' := by
  cases x with
  | deliver now i =>
    have hi : l.wire[i]? = some l.wire[i] := List.getElem?_eq_getElem hx
    have hbytes := h.wire _ (List.mem_of_getElem? hi)
    obtain ⟨tb, receiver, htb, hreceive, -⟩ := h.stream.deliver hbytes (hallowed _ hi) (h.arrives hbytes) now
    have hreceive : AmRxEntity.receiveProcessDataPdu now tb l.receiver = some receiver := hreceive
    refine ⟨{ l with arrived := l.wire[i].1 :: l.arrived, receiver := receiver }, ?_⟩
    rw [AmLink.handle, hi]
    simp only [Option.bind_eq_bind, Option.bind_some, htb, hreceive]
    rfl
  | checkTimerReordering now =>
    obtain ⟨receiver, hcheck, -⟩ := h.stream.inOrder.timer now
    have hcheck : AmRxEntity.checkTimerReordering now l.receiver = some receiver := hcheck
    refine ⟨{ l with receiver := receiver }, ?_⟩
    rw [AmLink.handle, hcheck]
    rfl
  | report nbBytes =>
    obtain ⟨e', info, -, -, -, hsend, -⟩ := h.stream.report hallowed
    have hsend : (l.receiver.toReceiver nbBytes).sendStatusPdu = some (e', info) := hsend
    rw [AmLink.handle, hsend]
    exact ⟨_, rfl⟩
  | submit | grant | deliverReport | checkTimerPollRetransmit => exact hx.elim

/-- What has been handed up is what the PDUs before the first missing one carry. -/
theorem dataInd_eq (h : l.InStep sent) :
    l.dataInd = some (assemble (UmEntity.framesTo sent l.receiver.reassembled.length)).1 := h.stream.dataInd_eq

theorem dataInd_prefix (h : l.InStep sent) : (assemble (UmEntity.framesTo sent l.receiver.reassembled.length)).1 <+:
    l.submitted := by
  rw [← h.sends.um.conserved]
  exact (assemble_mono ((List.take_prefix _ _).map _)).trans (List.prefix_append _ _)

/-- A PDU that has not arrived is kept. -/
theorem kept (h : l.InStep sent) {k : ℕ} (hk : k < l.built) (hmissing : k ∉ l.arrived) :
    (l.sender.pduOf k).sn = k % 1024 ∧ (l.sender.pduOf k).ack = false ∧ (l.sender.pduOf k).memBlock.isSome := by
  have hserves := h.serves
  have hbuilt : sent.length = l.passed + l.sender.offset l.sender.vtS := hserves.built
  have hak : l.passed ≤ k := Nat.le_of_not_lt fun hlt ↦ hmissing (hserves.passed k hlt)
  have hd : k - l.passed < l.sender.offset l.sender.vtS := by
    rw [h.built] at hk
    omega
  have hsn : snAt l.sender.vtA (k - l.passed) = k % 1024 := by
    rw [hserves.vtA_eq, snAt]
    omega
  have hslot : l.sender.pduOf (snAt l.sender.vtA (k - l.passed)) = l.sender.pduOf k := by
    refine congrArg l.sender.txDataPduBuffer ?_
    rw [hsn, rlcAmWindowSize]
    omega
  have hack : (l.sender.pduOf k).ack = false := by
    refine Bool.eq_false_iff.mpr fun hack ↦ hmissing ?_
    rw [← hslot] at hack
    have harrived := hserves.acked _ hd hack
    rwa [Nat.add_sub_cancel' hak] at harrived
  have hheld := hserves.window.held _ hd
  rw [hslot] at hheld
  refine ⟨?_, hack, hheld hack⟩
  rw [← hslot, hserves.window.sn_eq _ hd, hsn]

/-- Once all PDUs have arrived and nothing waits, everything has been handed up. -/
theorem complete (h : l.InStep sent) (hall : ∀ k < l.built, k ∈ l.arrived) (hempty : l.sender.sduBufferOccupancy = 0) :
    (assemble (UmEntity.framesTo sent l.receiver.reassembled.length)).1 = l.submitted := by
  have hlength : sent.length ≤ l.receiver.reassembled.length := by
    refine Nat.le_of_not_lt fun hlt ↦ h.stream.inOrder.length_not_mem (hall _ ?_)
    rw [h.built]
    exact hlt
  have hframes : UmEntity.framesTo sent l.receiver.reassembled.length = sent.map (·.frame) := by
    rw [UmEntity.framesTo, List.take_of_length_le hlength]
  have hconsistent := h.sends.um.consistent
  have hnothing : l.sender.txSdus = [] := by
    have hoccupancy := hconsistent.bufferOccupancy
    have hremaining := hconsistent.remaining_pos
    rw [UmEntity.short, umSent] at hoccupancy hremaining
    dsimp only at hoccupancy hremaining
    rw [hempty] at hoccupancy
    refine List.eq_nil_iff_forall_not_mem.mpr fun sdu hsdu ↦ ?_
    have hpos := hremaining sdu hsdu
    have hmem : sdu.sduRemainingSize ∈ l.sender.txSdus.map (·.sduRemainingSize) := List.mem_map_of_mem hsdu
    have hle := List.single_le_sum (fun _ _ ↦ Nat.zero_le _) _ hmem
    rw [← hoccupancy] at hle
    exact absurd hle (Nat.not_le.mpr hpos)
  have hconserved := h.sends.um.conserved
  rw [umSent] at hconserved
  dsimp only at hconserved
  rw [hnothing, List.map_nil, List.append_nil] at hconserved
  rw [hframes, hconserved]

end InStep

variable {maxRetxThreshold pollPdu pollByte pollMs reorderingMs : ℕ}

theorem inStep_start (maxRetxThreshold pollPdu pollByte pollMs reorderingMs : ℕ) :
    (start maxRetxThreshold pollPdu pollByte pollMs reorderingMs).InStep [] := by
  have hqueued : Queued [] (AmTransmitter.start pollPdu pollByte pollMs) := ⟨RingQueue.Holds.empty (by decide), rfl⟩
  have hqueue : (AmTransmitter.start pollPdu pollByte pollMs).queue = [] :=
    List.length_eq_zero_iff.mp hqueued.length_eq
  have hsdus : (AmTransmitter.start pollPdu pollByte pollMs).txSdus = [] := by rw [txSdus, hqueue, List.map_nil]
  have hoffset := start_offset pollPdu pollByte pollMs
  refine InStep.of_serves (a := 0) (AmStream.inStep_start reorderingMs) ⟨⟨[], hqueued⟩, ?_, ?_⟩
    ⟨⟨(TxKept.start pollPdu pollByte pollMs).window, fun _ ↦ ⟨rfl, Or.inl rfl⟩, rfl, ?_,
      fun k hk ↦ absurd hk (Nat.not_lt_zero k)⟩, fun d hd ↦ ?_, fun d hd ↦ ?_⟩ rfl (List.forall_mem_nil _)
    (List.forall_mem_nil _)
  · change ∀ i ∈ (AmTransmitter.start pollPdu pollByte pollMs).queue, _
    rw [hqueue]
    exact List.forall_mem_nil _
  · change (umSent [] (AmTransmitter.start pollPdu pollByte pollMs)).Sends 5 rlcSduMaxSize [] []
    rw [umSent, hsdus]
    exact ⟨Or.inl ⟨rfl, rfl⟩, ⟨rfl, rfl, List.forall_mem_nil _⟩, List.forall_mem_nil _, rfl, rfl, rfl, fun _ ↦ rfl,
      fun k p hp ↦ by cases hp⟩
  · exact hoffset.symm ▸ rfl
  · exact absurd (hoffset ▸ hd) (Nat.not_lt_zero d)
  · exact absurd (hoffset ▸ hd) (Nat.not_lt_zero d)

/-- Whatever PDUs and reports are lost, repeated or put out of order: no assertion of the receiver fails, and what is
handed up is the beginning of what was
submitted, byte for byte and in its order. A PDU that has not arrived is kept, and once all have arrived and nothing
waits everything has been handed up. -/
theorem delivered_inOrder
    (h : GuardedRun handle Allowed (start maxRetxThreshold pollPdu pollByte pollMs reorderingMs) l) :
    (∀ x, l.Allowed x → l.Receives x → ∃ l', handle x l = some l') ∧
      (∃ sdus, l.dataInd = some sdus ∧ sdus <+: l.submitted) ∧
      (∀ k < l.built, k ∉ l.arrived → (l.sender.pduOf k).sn = k % 1024 ∧ (l.sender.pduOf k).ack = false ∧
        (l.sender.pduOf k).memBlock.isSome) ∧
      ((∀ k < l.built, k ∈ l.arrived) → l.sender.sduBufferOccupancy = 0 → l.dataInd = some l.submitted) := by
  have hstep : ∃ sent, l.InStep sent := by
    refine h.invariant (P := fun l ↦ ∃ sent, l.InStep sent) ⟨[], inStep_start _ _ _ _ _⟩ fun b x c hb hallowed hx ↦ ?_
    obtain ⟨sent, hb⟩ := hb
    obtain ⟨more, hc⟩ := hb.handle hallowed hx
    exact ⟨_, hc⟩
  obtain ⟨sent, hstep⟩ := hstep
  refine ⟨fun x hallowed hx ↦ hstep.receives hallowed hx, ⟨_, hstep.dataInd_eq, hstep.dataInd_prefix⟩,
    fun k hk hmissing ↦ hstep.kept hk hmissing, fun hall hempty ↦ ?_⟩
  rw [hstep.dataInd_eq, hstep.complete hall hempty]

/-- Two SDUs in two PDUs. The second one arrives first, the receiver asks for the first one, which is sent again and
arrives twice. -/
def lostAndRepeated : List AmLinkEvent :=
  [.submit (twoBytes 1), .submit (oneByte 2), .grant 0 4 fun _ ↦ 0, .grant 1 3 fun _ ↦ 0, .deliver 2 1,
    .checkTimerReordering 40, .report 8, .deliverReport 0, .grant 41 9 fun _ ↦ 0, .deliver 42 2, .deliver 43 0,
    .report 8, .deliverReport 1, .checkTimerPollRetransmit 90]

theorem lostAndRepeated_delivered : ∃ l, lostAndRepeated.foldlM
    (fun (l : AmLink) x ↦ if l.Allowed x then handle x l else none) (start 4 4 1000 40 35) = some l ∧
      (∀ x, l.Allowed x → l.Receives x → ∃ l', handle x l = some l') ∧
      (∃ sdus, l.dataInd = some sdus ∧ sdus <+: l.submitted) ∧
      (∀ k < l.built, k ∉ l.arrived → (l.sender.pduOf k).sn = k % 1024 ∧ (l.sender.pduOf k).ack = false ∧
        (l.sender.pduOf k).memBlock.isSome) ∧
      ((∀ k < l.built, k ∈ l.arrived) → l.sender.sduBufferOccupancy = 0 → l.dataInd = some l.submitted) := by
  have hsome : (lostAndRepeated.foldlM (fun (l : AmLink) x ↦ if l.Allowed x then handle x l else none)
      (start 4 4 1000 40 35)).isSome = true := by
    decide +kernel
  obtain ⟨l, hl⟩ := Option.isSome_iff_exists.mp hsome
  exact ⟨l, hl, delivered_inOrder (.of_checked hl)⟩

end AmLink

end EdgeSlice.Rlc
