import EdgeSlice.Pdcp.Pdu

namespace EdgeSlice.Pdcp

variable {osa : Osa} {p p' q : Entity} {srbFlag toGtpu : Bool} {rbId : UInt16}
  {mode : TransmissionMode} {sdu : Bytes} {s : Sent}

theorem srbSn_serialize {sn : UInt8} (h : sn.toNat < 32) (rest : Bytes) :
    getSequenceNumberOfPduWithSrbSn (serializeControlPlaneDataPduWithSrbSn sn ++ rest) = sn := by
  have hget : getSequenceNumberOfPduWithSrbSn (serializeControlPlaneDataPduWithSrbSn sn ++ rest) =
      sn &&& 0x1F &&& 0x1F := rfl
  have hmask (x : ℕ) : x &&& 31 = x % 32 := Nat.and_two_pow_sub_one_eq_mod x 5
  rw [hget]
  apply UInt8.toNat_inj.mp
  rw [UInt8.toNat_and, UInt8.toNat_and, UInt8.toNat_ofNat, hmask, hmask]
  omega

theorem longSn_serialize (dc : Bool) {sn : UInt16} (h : sn.toNat < 4096) (rest : Bytes) :
    getSequenceNumberOfPduWithLongSn (serializeUserPlaneDataPduWithLongSn dc sn ++ rest) = sn := by
  have hget : getSequenceNumberOfPduWithLongSn (serializeUserPlaneDataPduWithLongSn dc sn ++ rest) =
      ((((sn >>> 8 &&& 0xFF).toUInt8 ||| (if dc then 0x80 else 0)) &&& 0x0F).toUInt16 <<< 8) |||
        ((sn &&& 0xFF).toUInt8 &&& 0xFF).toUInt16 := rfl
  have hmask (x : ℕ) : x &&& 15 = x % 16 := Nat.and_two_pow_sub_one_eq_mod x 4
  have hmask' (x : ℕ) : x &&& 255 = x % 256 := Nat.and_two_pow_sub_one_eq_mod x 8
  have hhigh : (sn.toNat / 256 % 256 ||| (if dc then (0x80 : UInt8) else 0).toNat) % 16 =
      sn.toNat / 256 := by
    have hdc : (if dc then (0x80 : UInt8) else 0).toNat &&& 15 = 0 := by cases dc <;> rfl
    rw [← hmask, Nat.and_or_distrib_right, hdc, Nat.or_zero, hmask]
    omega
  have hshift : sn.toNat / 256 * 256 % 65536 = sn.toNat / 256 * 256 := by omega
  have hjoin : sn.toNat / 256 * 256 ||| sn.toNat % 256 = sn.toNat := by
    rw [← Nat.shiftLeft_eq (sn.toNat / 256) 8,
      ← Nat.shiftLeft_add_eq_or_of_lt (Nat.mod_lt _ (by decide)), Nat.shiftLeft_eq]
    exact Nat.div_add_mod' sn.toNat 256
  rw [hget]
  apply UInt16.toNat_inj.mp
  simp only [UInt16.toNat_or, UInt16.toNat_shiftLeft, UInt16.toNat_shiftRight, UInt8.toNat_toUInt16,
    UInt8.toNat_and, UInt8.toNat_or, UInt16.toNat_toUInt8, UInt16.toNat_and, UInt8.toNat_ofNat,
    UInt16.toNat_ofNat, Nat.reducePow, Nat.reduceMod, hmask, hmask', Nat.shiftRight_eq_div_pow,
    Nat.shiftLeft_eq, Nat.mod_mod, hhigh, hshift, hjoin]

namespace Osa

variable (osa) (algorithm : UInt8) (params : StreamCipher) (size : ℕ) (message : Bytes)

@[simp] theorem streamEncrypt_length :
    (osa.streamEncrypt algorithm params size message).length = message.length := by
  unfold streamEncrypt
  split
  · rfl
  · split
    · exact xorStream_length _ _ _
    · split
      · exact xorStream_length _ _ _
      · rfl

theorem streamEncrypt_streamEncrypt :
    osa.streamEncrypt algorithm params size (osa.streamEncrypt algorithm params size message) =
      message := by
  by_cases hzero : algorithm = 0
  · simp only [streamEncrypt, if_pos hzero]
  · by_cases hone : algorithm = 1
    · simp only [streamEncrypt, if_neg hzero, if_pos hone, xorStream_xorStream]
    · by_cases htwo : algorithm = 2
      · simp only [streamEncrypt, if_neg hzero, if_neg hone, if_pos htwo, xorStream_xorStream]
      · simp only [streamEncrypt, if_neg hzero, if_neg hone, if_neg htwo]

end Osa

theorem rbIdBound_le (srbFlag : Bool) : rbIdBound srbFlag ≤ maxDrb := by cases srbFlag <;> decide

namespace Entity

theorem dataReq_some (h : p.dataReq osa srbFlag rbId mode sdu = (p', some s)) :
    sdu ≠ [] ∧ rbId.toNat < maxDrb ∧ s.sn = (p.assignSn srbFlag mode).1 ∧
      p' = (p.assignSn srbFlag mode).2.2 ∧
      s.sn ≤ calculateMaxSeqNumForGivenSize p'.seqNumSize ∧
      s.count = p'.getNextCountTx srbFlag s.sn ∧
      s.pdu =
        let header := (p.assignSn srbFlag mode).2.1
        let plain := header ++ sdu ++ List.replicate (tailerLen srbFlag) 0
        if p'.securityActivated ≠ 0 ∧
            (p'.cipheringAlgorithm ≠ 0 ∨ p'.integrityProtAlgorithm ≠ 0) then
          p'.applySecurity osa srbFlag rbId header.length s.sn plain sdu.length
        else plain := by
  unfold dataReq at h
  split at h
  · cases h
  · rename_i hne
    split at h
    · cases h
    · split at h
      · cases h
      · rename_i hrb
        simp only at h
        split at h
        · cases h
        · rename_i hsn
          obtain ⟨rfl, hs⟩ := Prod.mk.inj h
          obtain rfl := Option.some.inj hs
          have hlt : rbId.toNat < maxDrb :=
            (Nat.lt_of_not_ge hrb).trans_le (rbIdBound_le srbFlag)
          refine ⟨?_, hlt, rfl, rfl, UInt16.not_lt.mp hsn, rfl, ?_⟩
          · rintro rfl
            exact hne rfl
          · rw [Nat.mod_eq_of_lt hlt, UInt16.ofNat_toNat]

/-- Security leaves the header, and ciphers the data and what is behind it. -/
theorem applySecurity_eq (osa : Osa) (p : Entity) (srbFlag : Bool) (rbId : UInt16) (header sdu : Bytes)
    (sn : UInt16) :
    ∃ tail, tail.length = tailerLen srbFlag ∧
      p.applySecurity osa srbFlag rbId header.length sn
          (header ++ sdu ++ List.replicate (tailerLen srbFlag) 0) sdu.length =
        header ++ osa.streamEncrypt p.cipheringAlgorithm
          ⟨p.encKey srbFlag, p.getNextCountTx srbFlag sn, (rbId - 1).toUInt8, !p.isUe⟩ sdu.length
          (sdu ++ tail) := by
  have hsplit (tail : Bytes) : (header ++ sdu ++ tail).take header.length = header ∧
      (header ++ sdu ++ tail).drop header.length = sdu ++ tail := by
    rw [List.append_assoc]
    exact ⟨List.take_left, List.drop_left⟩
  cases srbFlag with
  | false =>
    refine ⟨[], rfl, ?_⟩
    simp only [applySecurity, tailerLen, Bool.false_eq_true, if_false, List.replicate_zero]
    rw [(hsplit []).1, (hsplit []).2]
  | true =>
    have hmessage : (header ++ sdu ++ List.replicate (tailerLen true) 0).take
        (header.length + sdu.length) = header ++ sdu := by
      rw [← List.length_append, List.take_left]
    simp only [applySecurity, if_true, hmessage]
    split
    · refine ⟨List.replicate (tailerLen true) 0, List.length_replicate .., ?_⟩
      rw [(hsplit _).1, (hsplit _).2]
    · rename_i macI _
      refine ⟨macI.toList, macI.size_toArray, ?_⟩
      rw [(hsplit _).1, (hsplit _).2]

theorem validateSecurity_buffer (q : Entity) (header body : Bytes) (sn : UInt16) (size : ℕ) :
    (q.validateSecurity osa srbFlag rbId header.length sn (header ++ body) size).2.1 =
      header ++ osa.streamEncrypt q.cipheringAlgorithm
        ⟨q.encKey srbFlag, (q.getNextCountRx srbFlag sn).1, (rbId - 1).toUInt8, q.isUe⟩
        (size - header.length) body := by
  unfold validateSecurity
  rw [List.take_left, List.drop_left]
  cases srbFlag <;> rfl

theorem validateSecurity_entity (q : Entity) (headerLen : ℕ) (buffer : Bytes) (sn : UInt16) (size : ℕ) :
    (q.validateSecurity osa srbFlag rbId headerLen sn buffer size).2.2 = { q with rxHfnOffset := 0 } := by
  cases srbFlag <;> rfl

/-- The bytes that `pdcp_data_ind` strips the header from. -/
def deciphered (osa : Osa) (q : Entity) (srbFlag : Bool) (rbId : UInt16) (headerLen : ℕ)
    (sn : UInt16) (pdu : Bytes) : Bytes :=
  if q.securityActivated = 1 then
    (q.validateSecurity osa srbFlag rbId headerLen sn pdu (pdu.length - tailerLen srbFlag)).2.1
  else pdu

theorem deciphered_length (osa : Osa) (q : Entity) (srbFlag : Bool) (rbId : UInt16) (headerLen : ℕ)
    (sn : UInt16) (pdu : Bytes) :
    (q.deciphered osa srbFlag rbId headerLen sn pdu).length = pdu.length := by
  have hsplit : (pdu.take headerLen).length + (pdu.drop headerLen).length = pdu.length := by
    rw [← List.length_append, List.take_append_drop]
  unfold deciphered
  split
  · cases srbFlag with
    | true =>
      simp only [validateSecurity, if_true, List.length_append, Osa.streamEncrypt_length]
      exact hsplit
    | false =>
      simp only [validateSecurity, Bool.false_eq_true, if_false, List.length_append,
        Osa.streamEncrypt_length]
      exact hsplit
  · rfl

/-- The entity after a PDU that is long enough. -/
def afterInd (q : Entity) (srbFlag toGtpu : Bool) (sn : UInt16) : Entity :=
  let q := (q.isRxSeqNumberValid sn srbFlag).2
  let q := if q.securityActivated = 1 then { q with rxHfnOffset := 0 } else q
  if srbFlag = false ∧ toGtpu = false ∧ q.rlcMode = .am then { q with lastSubmittedPdcpRxSn := sn } else q

/-- A PDU that is long enough is handed up, whatever its number and its MAC-I. -/
theorem dataInd_eq (osa : Osa) (q : Entity) (toGtpu : Bool) {pdu : Bytes} {headerLen : ℕ}
    {sn : UInt16} (hrb : rbId.toNat % maxDrb ≠ 0) (hne : pdu ≠ [])
    (hheader : q.parseHeader srbFlag pdu = (headerLen, sn)) (hlen : headerLen + tailerLen srbFlag ≤ pdu.length) :
    ∃ ind, q.dataInd osa srbFlag rbId toGtpu pdu = (q.afterInd srbFlag toGtpu sn, some ind) ∧
      ind.sn = sn ∧ ind.valid = (q.isRxSeqNumberValid sn srbFlag).1 ∧
      ind.count = ((q.isRxSeqNumberValid sn srbFlag).2.getNextCountRx srbFlag sn).1 ∧
      ind.receiver = (if srbFlag then .rrc else if toGtpu then .gtpv1u else .ip) ∧
      ind.sdu = (((q.isRxSeqNumberValid sn srbFlag).2.deciphered osa srbFlag rbId headerLen sn pdu).drop
        headerLen).take (pdu.length - headerLen - tailerLen srbFlag) := by
  have hpos : pdu.length ≠ 0 := fun h ↦ hne (List.length_eq_zero_iff.mp h)
  unfold dataInd
  rw [if_neg hrb, if_neg hpos, hheader]
  simp only
  rw [if_neg (Nat.not_lt.mpr hlen)]
  unfold afterInd
  generalize (q.isRxSeqNumberValid sn srbFlag).1 = valid
  generalize (q.isRxSeqNumberValid sn srbFlag).2 = q'
  have hsecurity : (if q'.securityActivated = 1 then
        (q'.validateSecurity osa srbFlag rbId headerLen sn pdu (pdu.length - tailerLen srbFlag)).2
      else (pdu, q')) = (q'.deciphered osa srbFlag rbId headerLen sn pdu,
        if q'.securityActivated = 1 then { q' with rxHfnOffset := 0 } else q') := by
    unfold deciphered
    split
    · exact Prod.ext rfl (q'.validateSecurity_entity headerLen pdu sn _)
    · rfl
  rw [hsecurity]
  simp only
  generalize (if q'.securityActivated = 1 then { q' with rxHfnOffset := 0 } else q') = q''
  refine ⟨⟨sn, valid, _, if srbFlag then .rrc else if toGtpu then .gtpv1u else .ip, _⟩, ?_,
    rfl, rfl, rfl, rfl, rfl⟩
  cases srbFlag with
  | true => rfl
  | false =>
    cases toGtpu with
    | true => rfl
    | false => by_cases hmode : q''.rlcMode = .am <;> simp [hmode]

end Entity

end EdgeSlice.Pdcp

namespace EdgeSlice.Pdcp

variable {osa osa' : Osa} {q : Entity} {rbId : UInt16} {toGtpu : Bool} {pdu pdu' : Bytes}

/-- The sequence number of an SRB PDU. -/
def srbSn (pdu : Bytes) : UInt16 := (getSequenceNumberOfPduWithSrbSn pdu).toUInt16

namespace Entity

/-- `pdcp_validate_security` checks the MAC-I of an SRB PDU, and the check fails. -/
def MacIFails (osa : Osa) (q : Entity) (rbId : UInt16) (pdu : Bytes) : Prop :=
  rbId.toNat % maxDrb ≠ 0 ∧ controlPlaneDataPduSnSize + tailerLen true ≤ pdu.length ∧
    q.securityActivated = 1 ∧
    ((isRxSeqNumberValid (srbSn pdu) q true).2.validateSecurity osa true rbId
      controlPlaneDataPduSnSize (srbSn pdu) pdu (pdu.length - tailerLen true)).1 = false

/-- Nothing is handed up and the receiving window is as before. -/
def RejectsAtomically (q : Entity) (result : Entity × Option Indication) : Prop :=
  result.2 = none ∧ result.1.nextPdcpRxSn = q.nextPdcpRxSn ∧ result.1.rxHfn = q.rxHfn ∧
    result.1.rxHfnOffset = q.rxHfnOffset

theorem dataInd_srb (osa : Osa) (q : Entity) (toGtpu : Bool) (hrb : rbId.toNat % maxDrb ≠ 0)
    (hlen : controlPlaneDataPduSnSize + tailerLen true ≤ pdu.length) :
    ∃ ind, q.dataInd osa true rbId toGtpu pdu = (q.afterInd true toGtpu (srbSn pdu), some ind) ∧
      ind.receiver = .rrc := by
  have hne : pdu ≠ [] := by
    rintro rfl
    exact absurd hlen (by decide)
  have hparse : q.parseHeader true pdu = (controlPlaneDataPduSnSize, srbSn pdu) := rfl
  obtain ⟨ind, hind, -, -, -, hreceiver, -⟩ := dataInd_eq osa q toGtpu hrb hne hparse hlen
  exact ⟨ind, hind, hreceiver⟩

/-- Whoever made a PDU, and with what MAC-I, its sequence number alone says how the window
moves. -/
theorem dataInd_window (hrb : rbId.toNat % maxDrb ≠ 0)
    (hlen : controlPlaneDataPduSnSize + tailerLen true ≤ pdu.length)
    (hlen' : controlPlaneDataPduSnSize + tailerLen true ≤ pdu'.length) (hsn : srbSn pdu = srbSn pdu') :
    (q.dataInd osa true rbId toGtpu pdu).1 = (q.dataInd osa' true rbId toGtpu pdu').1 := by
  obtain ⟨_, hind, -⟩ := dataInd_srb osa q toGtpu hrb hlen
  obtain ⟨_, hind', -⟩ := dataInd_srb osa' q toGtpu hrb hlen'
  rw [hind, hind', hsn]

/-- A PDU whose MAC-I check fails is handed to RRC. -/
theorem not_rejectsAtomically (h : MacIFails osa q rbId pdu) :
    ¬RejectsAtomically q (q.dataInd osa true rbId toGtpu pdu) := by
  obtain ⟨hrb, hlen, -, -⟩ := h
  rintro ⟨hnone, -⟩
  obtain ⟨ind, hind, -⟩ := dataInd_srb osa q toGtpu hrb hlen
  rw [hind] at hnone
  cases hnone

/-- An entity of an SRB with EIA2. -/
def srbEia2 : Entity :=
  { calloc with seqNumSize := 5, securityActivated := 1, integrityProtAlgorithm := 2 }

theorem srbEia2_macIFails : MacIFails Osa.null srbEia2 1 [0x05, 0x2A, 1, 1, 1, 1] := by
  refine ⟨?_, ?_, rfl, rfl⟩
  · decide
  · decide

theorem srbEia2_not_rejectsAtomically :
    ¬RejectsAtomically srbEia2 (srbEia2.dataInd Osa.null true 1 false [0x05, 0x2A, 1, 1, 1, 1]) :=
  not_rejectsAtomically srbEia2_macIFails

theorem forged_dataInd :
    srbEia2.dataInd Osa.null true 1 false [0x05, 0x2A, 1, 1, 1, 1] =
      ({ srbEia2 with nextPdcpRxSn := 6 }, some ⟨5, true, 5, .rrc, [0x2A]⟩) := rfl

/-- A forged PDU is handed to RRC and moves the window from 0 to 6. -/
theorem forged_not_rejected :
    MacIFails Osa.null srbEia2 1 [0x05, 0x2A, 1, 1, 1, 1] ∧
      ¬RejectsAtomically srbEia2 (srbEia2.dataInd Osa.null true 1 false [0x05, 0x2A, 1, 1, 1, 1]) := by
  refine ⟨srbEia2_macIFails, ?_⟩
  rw [forged_dataInd]
  rintro ⟨-, hsn, -⟩
  cases hsn

end Entity

end EdgeSlice.Pdcp
