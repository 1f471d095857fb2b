import EdgeSlice.Pdcp.PduRoundTrip

namespace EdgeSlice.Pdcp

variable {osa : Osa} {p p' q q' : Entity} {srbFlag toGtpu : Bool} {rbId : UInt16}
  {mode : TransmissionMode} {sdu : Bytes} {s : Sent}

namespace Entity

/-- The entity at the other end of a bearer has the same algorithms and keys. -/
structure Peer (p q : Entity) : Prop where
  cipheringAlgorithm : q.cipheringAlgorithm = p.cipheringAlgorithm
  integrityProtAlgorithm : q.integrityProtAlgorithm = p.integrityProtAlgorithm
  kUPenc : q.kUPenc = p.kUPenc
  kRRCint : q.kRRCint = p.kRRCint
  kRRCenc : q.kRRCenc = p.kRRCenc
  isUe : q.isUe = !p.isUe

theorem getNextTxSeqNumber_frame (p : Entity) :
    ∃ sn hfn, p.getNextTxSeqNumber.2 = { p with nextPdcpTxSn := sn, txHfn := hfn } := by
  unfold getNextTxSeqNumber
  split
  · split
    · exact ⟨_, _, rfl⟩
    · exact ⟨_, _, rfl⟩
  · exact ⟨_, _, rfl⟩

theorem assignSn_frame (p : Entity) (srbFlag : Bool) (mode : TransmissionMode) :
    ∃ sn hfn, (p.assignSn srbFlag mode).2.2 = { p with nextPdcpTxSn := sn, txHfn := hfn } := by
  cases srbFlag with
  | true => exact p.getNextTxSeqNumber_frame
  | false => exact p.getNextTxSeqNumber_frame

/-- Only the state of the receiving window differs. -/
def RxFrame (q q' : Entity) : Prop :=
  ∃ sn before hfn offset, q' = { q with
    nextPdcpRxSn := sn
    nextPdcpRxSnBeforeIntegrity := before
    rxHfn := hfn
    rxHfnOffset := offset }

theorem RxFrame.trans {q₁ q₂ q₃ : Entity} (h : RxFrame q₁ q₂) (h' : RxFrame q₂ q₃) :
    RxFrame q₁ q₃ := by
  obtain ⟨_, _, _, _, rfl⟩ := h
  obtain ⟨_, _, _, _, rfl⟩ := h'
  exact ⟨_, _, _, _, rfl⟩

theorem advanceRxWindow_frame (q : Entity) : RxFrame q q.advanceRxWindow := by
  unfold advanceRxWindow
  split
  · split
    · exact ⟨_, _, _, _, rfl⟩
    · exact ⟨_, _, _, _, rfl⟩
  · exact ⟨_, _, _, _, rfl⟩

theorem srbWindow_frame (seqNum : UInt16) (q : Entity) : RxFrame q (srbWindow seqNum q).2 := by
  refine RxFrame.trans ?_ (advanceRxWindow_frame _)
  split
  · exact ⟨_, _, _, _, rfl⟩
  · exact ⟨_, _, _, _, rfl⟩

theorem umWindow_frame (seqNum : UInt16) (q : Entity) : RxFrame q (umWindow seqNum q).2 := by
  refine RxFrame.trans ?_ (advanceRxWindow_frame _)
  split
  · exact ⟨_, _, _, _, rfl⟩
  · exact ⟨_, _, _, _, rfl⟩

theorem amWindow_frame (seqNum window : UInt16) (q : Entity) :
    RxFrame q (amWindow seqNum window q).2 := by
  have hadvance : RxFrame q { q with rxHfnOffset := 0, nextPdcpRxSn := seqNum }.advanceRxWindow :=
    RxFrame.trans ⟨_, _, _, _, rfl⟩ (advanceRxWindow_frame _)
  unfold amWindow
  simp only
  split_ifs
  all_goals first | exact hadvance | exact ⟨_, _, _, _, rfl⟩

theorem isRxSeqNumberValid_frame (seqNum : UInt16) (q : Entity) (srbFlag : Bool) :
    RxFrame q (isRxSeqNumberValid seqNum q srbFlag).2 := by
  unfold isRxSeqNumberValid
  split
  · exact ⟨_, _, _, _, rfl⟩
  · split
    · exact srbWindow_frame seqNum q
    · simp only
      split
      · exact amWindow_frame seqNum _ q
      · exact umWindow_frame seqNum q
      · exact ⟨_, _, _, _, rfl⟩
      · exact ⟨_, _, _, _, rfl⟩

theorem RxFrame.peer (h : RxFrame q q') (hpeer : Peer p q) : Peer p q' := by
  obtain ⟨_, _, _, _, rfl⟩ := h
  exact ⟨hpeer.1, hpeer.2, hpeer.3, hpeer.4, hpeer.5, hpeer.6⟩

theorem RxFrame.securityActivated (h : RxFrame q q') : q'.securityActivated = q.securityActivated := by
  obtain ⟨_, _, _, _, rfl⟩ := h
  rfl

theorem Peer.encKey (h : Peer p q) : q.encKey srbFlag = p.encKey srbFlag := by
  unfold Entity.encKey
  rw [h.kRRCenc, h.kUPenc]

/-- A PDU begins with its header, which security leaves. -/
theorem dataReq_header (h : p.dataReq osa srbFlag rbId mode sdu = (p', some s)) :
    ∃ body : Bytes, s.pdu = (p.assignSn srbFlag mode).2.1 ++ body ∧
      body.length = sdu.length + tailerLen srbFlag := by
  obtain ⟨-, -, -, -, -, -, hpdu⟩ := dataReq_some h
  simp only at hpdu
  split at hpdu
  · obtain ⟨tail, htail, happly⟩ := applySecurity_eq osa p' srbFlag rbId (p.assignSn srbFlag mode).2.1
      sdu s.sn
    refine ⟨_, hpdu.trans happly, ?_⟩
    rw [Osa.streamEncrypt_length, List.length_append, htail]
  · refine ⟨_, hpdu.trans (List.append_assoc _ _ _), ?_⟩
    rw [List.length_append, List.length_replicate]

theorem dataReq_length (h : p.dataReq osa srbFlag rbId mode sdu = (p', some s)) :
    s.pdu.length = (p.assignSn srbFlag mode).2.1.length + (sdu.length + tailerLen srbFlag) := by
  obtain ⟨body, hbody, hlen⟩ := dataReq_header h
  rw [hbody, List.length_append, hlen]

theorem dataReq_ne_nil (h : p.dataReq osa srbFlag rbId mode sdu = (p', some s)) : s.pdu ≠ [] := by
  obtain ⟨hne, -⟩ := dataReq_some h
  have hlen := dataReq_length h
  have hpos : 0 < sdu.length := List.length_pos_iff.mpr hne
  apply List.ne_nil_of_length_pos
  omega

theorem dataReq_plain (h : p.dataReq osa srbFlag rbId mode sdu = (p', some s))
    (hoff : p.securityActivated = 0) :
    s.pdu = (p.assignSn srbFlag mode).2.1 ++ (sdu ++ List.replicate (tailerLen srbFlag) 0) := by
  obtain ⟨-, -, -, hp', -, -, hpdu⟩ := dataReq_some h
  obtain ⟨sn, hfn, hframe⟩ := p.assignSn_frame srbFlag mode
  rw [← hp'] at hframe
  subst hframe
  rw [hpdu, ← List.append_assoc]
  refine if_neg ?_
  rintro ⟨hon, -⟩
  exact hon hoff

/-- Header, data and MAC-I of a PDU that is ciphered, perhaps with the null algorithm. -/
theorem dataReq_ciphered (h : p.dataReq osa srbFlag rbId mode sdu = (p', some s))
    (hon : p.securityActivated = 1) :
    ∃ tail : Bytes, tail.length = tailerLen srbFlag ∧
      s.pdu = (p.assignSn srbFlag mode).2.1 ++ osa.streamEncrypt p.cipheringAlgorithm
        ⟨p.encKey srbFlag, s.count, (rbId - 1).toUInt8, !p.isUe⟩ sdu.length (sdu ++ tail) := by
  obtain ⟨-, -, -, hp', -, hcount, hpdu⟩ := dataReq_some h
  obtain ⟨sn, hfn, hframe⟩ := p.assignSn_frame srbFlag mode
  rw [← hp'] at hframe
  subst hframe
  simp only at hpdu
  split at hpdu
  · obtain ⟨tail, htail, happly⟩ := applySecurity_eq osa { p with nextPdcpTxSn := sn, txHfn := hfn }
      srbFlag rbId (p.assignSn srbFlag mode).2.1 sdu s.sn
    refine ⟨tail, htail, ?_⟩
    rw [hpdu, happly, hcount]
    rfl
  · rename_i hnull
    refine ⟨List.replicate (tailerLen srbFlag) 0, List.length_replicate .., ?_⟩
    have hzero : p.cipheringAlgorithm = 0 := by
      by_contra hne
      exact hnull ⟨by rw [hon]; decide, .inl hne⟩
    rw [hpdu, hzero, List.append_assoc]
    rfl

theorem parseHeader_sent (h : p.dataReq osa srbFlag rbId mode sdu = (p', some s))
    (hsize : q.seqNumSize = p.seqNumSize)
    (hbearer : srbFlag = true ∧ p.seqNumSize = 5 ∨ srbFlag = false ∧ p.seqNumSize = 12) (body : Bytes) :
    q.parseHeader srbFlag ((p.assignSn srbFlag mode).2.1 ++ body) =
      ((p.assignSn srbFlag mode).2.1.length, s.sn) := by
  obtain ⟨-, -, hsn, hp', hmax, -, -⟩ := dataReq_some h
  obtain ⟨sn, hfn, hframe⟩ := p.assignSn_frame srbFlag mode
  rw [← hp'] at hframe
  subst hframe
  simp only at hmax
  have hmax' := UInt16.le_iff_toNat_le.mp hmax
  rcases hbearer with ⟨rfl, hfive⟩ | ⟨rfl, htwelve⟩
  · have hsn' : s.sn = p.getNextTxSeqNumber.1.toUInt8.toUInt16 := hsn
    rw [hfive, hsn'] at hmax'
    have hlt : p.getNextTxSeqNumber.1.toUInt8.toNat < 32 := Nat.lt_succ_of_le hmax'
    have hparse := srbSn_serialize hlt body
    rw [hsn']
    exact Prod.ext rfl (congrArg UInt8.toUInt16 hparse)
  · have hsn' : s.sn = p.getNextTxSeqNumber.1 := hsn
    rw [htwelve, hsn'] at hmax'
    have hlt : p.getNextTxSeqNumber.1.toNat < 4096 := Nat.lt_succ_of_le hmax'
    have hparse := longSn_serialize (mode = .data) hlt body
    rw [hsn']
    simp only [parseHeader, Bool.false_eq_true, if_false, hsize, htwelve]
    exact Prod.ext rfl hparse

/-- A PDU with five or twelve bits is handed up with its number. -/
theorem dataInd_sent (h : p.dataReq osa srbFlag rbId mode sdu = (p', some s))
    (hsize : q.seqNumSize = p.seqNumSize)
    (hbearer : srbFlag = true ∧ p.seqNumSize = 5 ∨ srbFlag = false ∧ p.seqNumSize = 12)
    (hrb : rbId.toNat % maxDrb ≠ 0) (toGtpu : Bool) :
    ∃ ind, q.dataInd osa srbFlag rbId toGtpu s.pdu = (q.afterInd srbFlag toGtpu s.sn, some ind) ∧
      ind.sn = s.sn ∧ ind.valid = (isRxSeqNumberValid s.sn q srbFlag).1 ∧
      ind.count = ((isRxSeqNumberValid s.sn q srbFlag).2.getNextCountRx srbFlag s.sn).1 ∧
      ind.sdu = (((isRxSeqNumberValid s.sn q srbFlag).2.deciphered osa srbFlag rbId
        (p.assignSn srbFlag mode).2.1.length s.sn s.pdu).drop
          (p.assignSn srbFlag mode).2.1.length).take sdu.length := by
  obtain ⟨body, hbody, -⟩ := dataReq_header h
  have hlen := dataReq_length h
  have hparse := parseHeader_sent h hsize hbearer body
  rw [← hbody] at hparse
  obtain ⟨ind, hind, hsn, hvalid, hcount, -, hsdu⟩ :=
    dataInd_eq osa q toGtpu hrb (dataReq_ne_nil h) hparse (by omega)
  have hdata : s.pdu.length - (p.assignSn srbFlag mode).2.1.length - tailerLen srbFlag = sdu.length := by
    omega
  rw [hdata] at hsdu
  exact ⟨ind, hind, hsn, hvalid, hcount, hsdu⟩

/-- Security is off, or on with the same keys and the same COUNT. -/
def SecurityAgrees (p q : Entity) (srbFlag : Bool) (s : Sent) : Prop :=
  p.securityActivated = 0 ∧ q.securityActivated = 0 ∨
    p.securityActivated = 1 ∧ q.securityActivated = 1 ∧ Peer p q ∧
      ((isRxSeqNumberValid s.sn q srbFlag).2.getNextCountRx srbFlag s.sn).1 = s.count

theorem deciphered_sent (h : p.dataReq osa srbFlag rbId mode sdu = (p', some s))
    (hsecurity : SecurityAgrees p q srbFlag s) :
    ∃ tail : Bytes, tail.length = tailerLen srbFlag ∧
      (isRxSeqNumberValid s.sn q srbFlag).2.deciphered osa srbFlag rbId
        (p.assignSn srbFlag mode).2.1.length s.sn s.pdu =
          (p.assignSn srbFlag mode).2.1 ++ (sdu ++ tail) := by
  have hframe := isRxSeqNumberValid_frame s.sn q srbFlag
  unfold deciphered
  rw [hframe.securityActivated]
  rcases hsecurity with ⟨hp, hq⟩ | ⟨hp, hq, hpeer, hcount⟩
  · refine ⟨List.replicate (tailerLen srbFlag) 0, List.length_replicate .., ?_⟩
    rw [hq, dataReq_plain h hp]
    rfl
  · obtain ⟨tail, htail, hpdu⟩ := dataReq_ciphered h hp
    have hlen := dataReq_length h
    have hsize : s.pdu.length - tailerLen srbFlag - (p.assignSn srbFlag mode).2.1.length =
        sdu.length := by
      omega
    have hpeer' := hframe.peer hpeer
    refine ⟨tail, htail, ?_⟩
    rw [hq, if_pos rfl, hpdu, validateSecurity_buffer, ← hpdu, hsize, hcount, hpeer'.encKey,
      hpeer'.cipheringAlgorithm, hpeer'.isUe, Osa.streamEncrypt_streamEncrypt]

end Entity

/-- The PDU is taken apart to its sequence number and its data. -/
def RoundTrip (osa : Osa) (q : Entity) (srbFlag : Bool) (rbId : UInt16) (toGtpu : Bool)
    (sdu : Bytes) (s : Sent) : Prop :=
  ∃ ind, (q.dataInd osa srbFlag rbId toGtpu s.pdu).2 = some ind ∧ ind.sn = s.sn ∧ ind.sdu = sdu

namespace Entity

theorem roundTrip_of_long (h : p.dataReq osa srbFlag rbId mode sdu = (p', some s))
    (hsize : q.seqNumSize = p.seqNumSize)
    (hbearer : srbFlag = true ∧ p.seqNumSize = 5 ∨ srbFlag = false ∧ p.seqNumSize = 12)
    (hrb : rbId.toNat % maxDrb ≠ 0) (hsecurity : SecurityAgrees p q srbFlag s) :
    RoundTrip osa q srbFlag rbId toGtpu sdu s := by
  obtain ⟨tail, htail, hdeciphered⟩ := deciphered_sent h hsecurity
  obtain ⟨ind, hind, hsn, -, -, hsdu⟩ := dataInd_sent h hsize hbearer hrb toGtpu
  refine ⟨ind, congrArg Prod.snd hind, hsn, ?_⟩
  rw [hsdu, hdeciphered, List.drop_left, List.take_left]

/-- One byte of the long header is left in front of the data when the short one is stripped. -/
theorem not_roundTrip_of_short (h : p.dataReq osa false rbId mode sdu = (p', some s))
    (hsize : q.seqNumSize = 7) : ¬RoundTrip osa q false rbId toGtpu sdu s := by
  rintro ⟨ind, hind, -, hsdu⟩
  have hlen : s.pdu.length = 2 + sdu.length := dataReq_length h
  by_cases hrb : rbId.toNat % maxDrb = 0
  · rw [dataInd, if_pos hrb] at hind
    cases hind
  have hparse : q.parseHeader false s.pdu = (1, (getSequenceNumberOfPduWithShortSn s.pdu).toUInt16) := by
    simp only [parseHeader, Bool.false_eq_true, if_false, hsize, if_true]
    rfl
  have htailer : 1 + tailerLen false ≤ s.pdu.length := by
    rw [hlen]
    exact Nat.add_le_add (by decide) (Nat.zero_le _)
  obtain ⟨ind', hind', -, -, -, -, hsdu'⟩ := dataInd_eq osa q toGtpu hrb (dataReq_ne_nil h) hparse htailer
  rw [hind'] at hind
  obtain rfl := Option.some.inj hind
  have hstripped := congrArg List.length hsdu'
  rw [hsdu, List.length_take, List.length_drop, deciphered_length, hlen] at hstripped
  change sdu.length = min (2 + sdu.length - 1 - 0) (2 + sdu.length - 1) at hstripped
  omega

theorem srb_dataReq :
    ({ calloc with seqNumSize := 5 } : Entity).dataReq Osa.null true 1 .control [0x2A] =
      ({ calloc with seqNumSize := 5, nextPdcpTxSn := 1 }, some ⟨0, 0, [0x00, 0x2A, 0, 0, 0, 0]⟩) := rfl

end Entity

end EdgeSlice.Pdcp
