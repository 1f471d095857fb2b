import EdgeSlice.NumberedStreams
import EdgeSlice.Pdcp.Numbering

namespace EdgeSlice.Pdcp

open SplitCounter

variable {osa : Osa} {p : Entity} {srbFlag : Bool} {rbId : UInt16} {s t : Sent} {j k : ℕ}

/-- The PDUs whose COUNT is their place in the sequence: not the last of a cycle of sequence
numbers, and for the short sequence number not those behind the first cycle, but for one. -/
def CountExact (seqNumSize : UInt8) (k : ℕ) : Prop :=
  if seqNumSize = 7 then k < 127 ∨ k = 138547327 else (k + 1) % cycle seqNumSize ≠ 0

/-- The COUNTs come again after so many PDUs. -/
def countPeriod (seqNumSize : UInt8) : ℕ := if seqNumSize = 7 then 2 ^ 27 else 2 ^ 32

theorem sendAll_sentAt (hbearer : IsBearer srbFlag p.seqNumSize)
    {requests : List (TransmissionMode × Bytes)}
    (hs : (p.initSeqNumbers.sendAll osa srbFlag rbId requests)[k]? = some s) :
    SentAt osa srbFlag rbId p.seqNumSize k s := by
  have hsent := (Entity.sendAll_init hbearer requests).get hs
  rwa [Nat.zero_add] at hsent

theorem count_exact_seven (hk : k < 2 ^ 32) :
    ((k + 1) / 128 * 4096 + k % 128) % 2 ^ 32 = k ↔ k < 127 ∨ k = 138547327 := by
  obtain ⟨q, r, hr, rfl⟩ : ∃ q r, r < 128 ∧ k = 128 * q + r :=
    ⟨k / 128, k % 128, Nat.mod_lt k (by decide), (Nat.div_add_mod k 128).symm⟩
  have hmod : (128 * q + r) % 128 = r := by omega
  have hjoined : ∀ high, (high * 4096 + r) % 2 ^ 32 = r + 4096 * (high % 2 ^ 20) := fun high ↦
    joined_mod (m := 4096) high (2 ^ 20) (by omega)
  rw [hmod, hjoined]
  by_cases hlast : r = 127
  · -- 31 q + 32 = 2 ^ 25 m has one solution below 2 ^ 25
    have hdiv : (128 * q + r + 1) / 128 = q + 1 := by omega
    have hhigh := Nat.div_add_mod (q + 1) (2 ^ 20)
    rw [hdiv]
    omega
  · have hdiv : (128 * q + r + 1) / 128 = q := by omega
    have hhigh := Nat.div_add_mod q (2 ^ 20)
    rw [hdiv]
    omega

/-- An SRB entity with integrity protection. -/
def protectedSrb : Entity :=
  { Entity.calloc with seqNumSize := 5, securityActivated := 1, integrityProtAlgorithm := 2 }

theorem protectedSrb_fourth :
    (protectedSrb.initSeqNumbers.sendAll Osa.null true 1 (List.replicate 40 (.control, [0x2A])))[3]? =
      some ⟨3, 3, [0x03, 0x2A, 0, 0, 0, 0]⟩ := rfl

end EdgeSlice.Pdcp

namespace EdgeSlice.Pdcp

open SplitCounter

variable {osa : Osa} {p q : Entity} {srbFlag toGtpu : Bool} {rbId : UInt16} {s : Sent}
  {c : SplitCounter} {hfn : UInt32} {sn next : UInt16} {seqNumSize : UInt8} {k j : ℕ}

theorem IsBearer.of_long (h : srbFlag = true ∧ seqNumSize = 5 ∨ srbFlag = false ∧ seqNumSize = 12) :
    IsBearer srbFlag seqNumSize := by
  rcases h with hsrb | ⟨hdrb, htwelve⟩
  · exact .inl hsrb
  · exact .inr ⟨hdrb, .inr htwelve⟩

theorem Shows.resume (h : Shows c hfn next) (sn : UInt16) :
    Shows (resume c sn.toNat) (if sn < next then hfn + 1 else hfn) sn := by
  obtain ⟨rfl, hnext⟩ := h
  unfold SplitCounter.resume
  rw [← hnext]
  by_cases hlt : sn < next
  · rw [if_pos hlt, if_pos (UInt16.lt_iff_toNat_lt.mp hlt)]
    exact ⟨(UInt32.ofNat_add c.high 1).symm, rfl⟩
  · rw [if_neg hlt, if_neg fun h ↦ hlt (UInt16.lt_iff_toNat_lt.mpr h)]
    exact ⟨rfl, rfl⟩

namespace Entity

/-- The counter of the next PDU that is expected. -/
def Expects (q : Entity) (k : ℕ) : Prop :=
  Shows (ofNat (cycle q.seqNumSize) k) q.rxHfn q.nextPdcpRxSn

theorem advanceRxWindow_expects (hbearer : IsBearer srbFlag q.seqNumSize)
    (h : Shows (ofNat (cycle q.seqNumSize) j) q.rxHfn q.nextPdcpRxSn) :
    q.advanceRxWindow.Expects (j + 1) := by
  have hshows := advanceRxWindow_shows hbearer h (ofNat_low_lt _ j)
  obtain ⟨_, _, _, _, hframe⟩ := advanceRxWindow_frame q
  have hsize : q.advanceRxWindow.seqNumSize = q.seqNumSize := by rw [hframe]
  rw [bump_ofNat (cycle_pos _)] at hshows
  rw [Expects, hsize]
  exact hshows

theorem advanceRxWindow_offset (q : Entity) : q.advanceRxWindow.rxHfnOffset = q.rxHfnOffset := by
  unfold advanceRxWindow
  split
  · split
    · rfl
    · rfl
  · rfl

/-- A PDU less than a cycle ahead moves the window behind it. -/
theorem Expects.advance {q' : Entity} (h : q.Expects k) (hbearer : IsBearer srbFlag q.seqNumSize)
    (hk : k ≤ j) (hj : j < k + cycle q.seqNumSize) (hsn : sn.toNat = j % cycle q.seqNumSize)
    (hsize : q'.seqNumSize = q.seqNumSize) (hnext : q'.nextPdcpRxSn = sn)
    (hhfn : (if sn < q.nextPdcpRxSn then q.rxHfn + 1 else q.rxHfn) = q'.rxHfn) :
    q'.advanceRxWindow.Expects (j + 1) := by
  have hresume := h.resume sn
  rw [hsn, resume_ofNat (cycle_pos _) hk hj, hhfn, ← hnext, ← hsize] at hresume
  exact advanceRxWindow_expects (hsize ▸ hbearer) hresume

theorem srbWindow_expects (hbearer : IsBearer srbFlag q.seqNumSize) (h : q.Expects k) (hk : k ≤ j)
    (hj : j < k + cycle q.seqNumSize) (hsn : sn.toNat = j % cycle q.seqNumSize) :
    (srbWindow sn q).1 = true ∧ (srbWindow sn q).2.Expects (j + 1) ∧
      (srbWindow sn q).2.rxHfnOffset = 0 := by
  unfold srbWindow
  by_cases hlt : sn < q.nextPdcpRxSn
  · simp only [if_pos hlt]
    exact ⟨trivial, h.advance hbearer hk hj hsn rfl rfl (if_pos hlt), advanceRxWindow_offset _⟩
  · simp only [if_neg hlt]
    exact ⟨trivial, h.advance hbearer hk hj hsn rfl rfl (if_neg hlt), advanceRxWindow_offset _⟩

theorem umWindow_expects (hbearer : IsBearer srbFlag q.seqNumSize) (h : q.Expects k) (hk : k ≤ j)
    (hj : j < k + cycle q.seqNumSize) (hsn : sn.toNat = j % cycle q.seqNumSize) :
    (umWindow sn q).1 = true ∧ (umWindow sn q).2.Expects (j + 1) ∧
      (umWindow sn q).2.rxHfnOffset = q.rxHfnOffset := by
  unfold umWindow
  by_cases hlt : sn < q.nextPdcpRxSn
  · simp only [if_pos hlt]
    exact ⟨trivial, h.advance hbearer hk hj hsn rfl rfl (if_pos hlt), advanceRxWindow_offset _⟩
  · simp only [if_neg hlt]
    exact ⟨trivial, h.advance hbearer hk hj hsn rfl rfl (if_neg hlt), advanceRxWindow_offset _⟩

theorem initSeqNumbers_expects (q : Entity) : q.initSeqNumbers.Expects 0 := by
  rw [Expects, ofNat_zero]
  exact ⟨rfl, rfl⟩

theorem isSeqNum_valid (hbearer : IsBearer srbFlag q.seqNumSize)
    (hsn : sn.toNat < cycle q.seqNumSize) :
    ¬(!q.isSeqNumSizeValid || !isSeqNumValid sn q.seqNumSize) = true := by
  have hle : sn ≤ calculateMaxSeqNumForGivenSize q.seqNumSize := by
    rw [UInt16.le_iff_toNat_le]
    rw [← hbearer.max_add_one] at hsn
    exact Nat.le_of_lt_succ hsn
  have hvalid : isSeqNumValid sn q.seqNumSize = true := decide_eq_true hle
  rw [hbearer.isSeqNumSizeValid, hvalid]
  decide

/-- An SRB, or a UM DRB whose HFN offset is not in use. -/
def InOrder (srbFlag : Bool) (q : Entity) : Prop :=
  srbFlag = true ∨ q.rlcMode = .um ∧ q.rxHfnOffset = 0

theorem isRxSeqNumberValid_expects (hbearer : IsBearer srbFlag q.seqNumSize)
    (hmode : q.InOrder srbFlag) (h : q.Expects k) (hk : k ≤ j) (hj : j < k + cycle q.seqNumSize)
    (hsn : sn.toNat = j % cycle q.seqNumSize) :
    (isRxSeqNumberValid sn q srbFlag).1 = true ∧
      (isRxSeqNumberValid sn q srbFlag).2.Expects (j + 1) ∧
      (isRxSeqNumberValid sn q srbFlag).2.rxHfnOffset = 0 := by
  have hlt : sn.toNat < cycle q.seqNumSize := by
    rw [hsn]
    exact Nat.mod_lt j (cycle_pos _)
  unfold isRxSeqNumberValid
  rw [if_neg (isSeqNum_valid hbearer hlt)]
  rcases hmode with rfl | ⟨hum, hoffset⟩
  · exact srbWindow_expects hbearer h hk hj hsn
  · cases srbFlag with
    | true => exact srbWindow_expects hbearer h hk hj hsn
    | false =>
      simp only [Bool.false_eq_true, if_false, hum]
      obtain ⟨hvalid, hexpects, hoffset'⟩ := umWindow_expects hbearer h hk hj hsn
      exact ⟨hvalid, hexpects, hoffset'.trans hoffset⟩

theorem getNextCountRx_toNat (hbearer : IsBearer srbFlag q.seqNumSize) (h : q.Expects (j + 1))
    (hoffset : q.rxHfnOffset = 0) (hsn : sn.toNat = j % cycle q.seqNumSize) :
    (q.getNextCountRx srbFlag sn).1.toNat =
      ((j + 1) / cycle q.seqNumSize * 2 ^ snBits srbFlag + j % cycle q.seqNumSize) % 2 ^ 32 := by
  have hlt : sn.toNat < cycle q.seqNumSize := by
    rw [hsn]
    exact Nat.mod_lt j (cycle_pos _)
  have hzero : q.rxHfn + q.rxHfnOffset.toInt32.toUInt32 = UInt32.ofNat ((j + 1) / cycle q.seqNumSize) := by
    rw [hoffset, h.1]
    exact UInt32.add_zero _
  rw [getNextCountRx, hzero, hbearer.count_toNat _ hlt, hsn]

end Entity

theorem SentAt.dataInd (h : SentAt osa srbFlag rbId q.seqNumSize k s)
    (hlong : srbFlag = true ∧ q.seqNumSize = 5 ∨ srbFlag = false ∧ q.seqNumSize = 12)
    (hrb : rbId.toNat % maxDrb ≠ 0) (toGtpu : Bool) :
    ∃ ind, q.dataInd osa srbFlag rbId toGtpu s.pdu = (q.afterInd srbFlag toGtpu s.sn, some ind) ∧
      ind.valid = (Entity.isRxSeqNumberValid s.sn q srbFlag).1 ∧
      ind.count = ((Entity.isRxSeqNumberValid s.sn q srbFlag).2.getNextCountRx srbFlag s.sn).1 := by
  obtain ⟨p, p', mode, sdu, hsize, -, hsome⟩ := h
  obtain ⟨ind, hind, -, hvalid, hcount, -⟩ :=
    Entity.dataInd_sent hsome hsize.symm (hsize ▸ hlong) hrb toGtpu
  exact ⟨ind, hind, hvalid, hcount⟩

namespace Entity

/-- Behind the window a PDU may still reset the HFN offset and set the last submitted number. -/
theorem afterInd_eq (q : Entity) (srbFlag toGtpu : Bool) (sn : UInt16) :
    ∃ offset last, q.afterInd srbFlag toGtpu sn =
        { (isRxSeqNumberValid sn q srbFlag).2 with
          rxHfnOffset := offset
          lastSubmittedPdcpRxSn := last } ∧
      ((isRxSeqNumberValid sn q srbFlag).2.rxHfnOffset = 0 → offset = 0) := by
  unfold afterInd
  simp only
  generalize (isRxSeqNumberValid sn q srbFlag).2 = q'
  by_cases hsecurity : q'.securityActivated = 1
  · rw [if_pos hsecurity]
    split
    · exact ⟨_, _, rfl, fun _ ↦ rfl⟩
    · exact ⟨_, _, rfl, fun _ ↦ rfl⟩
  · rw [if_neg hsecurity]
    split
    · exact ⟨_, _, rfl, id⟩
    · exact ⟨_, _, rfl, id⟩

theorem afterInd_expects (toGtpu : Bool) (hbearer : IsBearer srbFlag q.seqNumSize)
    (hmode : q.InOrder srbFlag) (h : q.Expects k) (hk : k ≤ j) (hj : j < k + cycle q.seqNumSize)
    (hsn : sn.toNat = j % cycle q.seqNumSize) :
    (q.afterInd srbFlag toGtpu sn).seqNumSize = q.seqNumSize ∧
      (q.afterInd srbFlag toGtpu sn).InOrder srbFlag ∧
      (q.afterInd srbFlag toGtpu sn).Expects (j + 1) := by
  obtain ⟨-, hexpects, hoffset⟩ := isRxSeqNumberValid_expects hbearer hmode h hk hj hsn
  obtain ⟨_, _, _, _, hframe⟩ := isRxSeqNumberValid_frame sn q srbFlag
  obtain ⟨offset, last, hafter, hzero⟩ := q.afterInd_eq srbFlag toGtpu sn
  rw [hafter]
  refine ⟨by rw [hframe], ?_, hexpects⟩
  rcases hmode with hsrb | ⟨hum, -⟩
  · exact .inl hsrb
  · refine .inr ⟨?_, hzero hoffset⟩
    rw [hframe]
    exact hum

/-- What a receiver gets of the PDUs that are not lost, each with what was sent. -/
def receiveAll (osa : Osa) (srbFlag : Bool) (rbId : UInt16) (toGtpu : Bool) :
    Entity → List (Sent × Bool) → List (Sent × Indication)
  | _, [] => []
  | q, (s, lost) :: channel =>
    if lost then receiveAll osa srbFlag rbId toGtpu q channel
    else
      match q.dataInd osa srbFlag rbId toGtpu s.pdu with
      | (q', none) => receiveAll osa srbFlag rbId toGtpu q' channel
      | (q', some ind) => (s, ind) :: receiveAll osa srbFlag rbId toGtpu q' channel

/-- The run of a receiver that expects `k`, with the PDUs from `k + d` on in the channel. -/
theorem receiveAll_counts {d : ℕ} {sends : List Sent} {losses : List Bool}
    (hlong : srbFlag = true ∧ q.seqNumSize = 5 ∨ srbFlag = false ∧ q.seqNumSize = 12)
    (hrb : rbId.toNat % maxDrb ≠ 0) (hmode : q.InOrder srbFlag) (h : q.Expects k)
    (hsends : SentFrom osa srbFlag rbId q.seqNumSize (k + d) sends)
    (hloss : ¬List.replicate (cycle q.seqNumSize) true <:+: List.replicate d true ++ losses) :
    (receiveAll osa srbFlag rbId toGtpu q (sends.zip losses)).map (·.2.count) =
      ((sends.zip losses).filter (!·.2)).map (·.1.count) := by
  have hbearer : IsBearer srbFlag q.seqNumSize := .of_long hlong
  induction sends generalizing q k d losses with
  | nil => rfl
  | cons s sends ih =>
    cases losses with
    | nil => rfl
    | cons lost losses =>
      rw [List.zip_cons_cons, receiveAll]
      cases lost with
      | true =>
        rw [if_pos rfl, List.filter_cons_of_neg Bool.false_ne_true]
        exact ih hlong hmode h hsends.2 (not_infix_cons hloss) hbearer
      | false =>
        rw [if_neg Bool.false_ne_true]
        have hd := lt_of_not_infix hloss
        obtain ⟨hsn, hcount⟩ := hsends.1.numbers hbearer
        obtain ⟨ind, hind, -, hindCount⟩ := hsends.1.dataInd hlong hrb toGtpu
        have hle : k ≤ k + d := Nat.le_add_right k d
        have hlt : k + d < k + cycle q.seqNumSize := Nat.add_lt_add_left hd k
        obtain ⟨hsize, hmode', hexpects⟩ :=
          afterInd_expects toGtpu hbearer hmode h hle hlt hsn
        obtain ⟨-, hwindow, hoffset⟩ := isRxSeqNumberValid_expects hbearer hmode h hle hlt hsn
        obtain ⟨_, _, _, _, hframe⟩ := isRxSeqNumberValid_frame s.sn q srbFlag
        have hsize' : (isRxSeqNumberValid s.sn q srbFlag).2.seqNumSize = q.seqNumSize := by rw [hframe]
        rw [hind, List.filter_cons_of_pos (by rfl), List.map_cons, List.map_cons]
        refine List.cons_eq_cons.mpr ⟨?_, ?_⟩
        · apply UInt32.toNat_inj.mp
          rw [hindCount, getNextCountRx_toNat (hsize' ▸ hbearer) hwindow hoffset (hsize' ▸ hsn), hcount,
            hsize']
        · have hrest := not_infix_drop hloss
          have hsends' := hsends.2
          rw [← hsize] at hlong hsends' hrest hbearer
          exact ih hlong hmode' hexpects hsends' hrest hbearer

end Entity

end EdgeSlice.Pdcp
