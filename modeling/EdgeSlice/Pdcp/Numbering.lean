import EdgeSlice.Pdcp.BearerRoundTrip

namespace EdgeSlice.Pdcp

open SplitCounter

variable {osa : Osa} {p p' q : Entity} {srbFlag toGtpu : Bool} {rbId : UInt16}
  {mode : TransmissionMode} {sdu : Bytes} {s : Sent} {c : SplitCounter} {hfn : UInt32} {sn : UInt16}

/-- HFN and SN show a counter. -/
def Shows (c : SplitCounter) (hfn : UInt32) (sn : UInt16) : Prop :=
  hfn = UInt32.ofNat c.high ∧ sn.toNat = c.low

/-- The sequence numbers of a size. -/
def cycle (seqNumSize : UInt8) : ℕ := 2 ^ seqNumSize.toNat

/-- The planes and the sizes that are in use with them. -/
def IsBearer (srbFlag : Bool) (seqNumSize : UInt8) : Prop :=
  srbFlag = true ∧ seqNumSize = 5 ∨ srbFlag = false ∧ (seqNumSize = 7 ∨ seqNumSize = 12)

theorem cycle_pos (seqNumSize : UInt8) : 0 < cycle seqNumSize := Nat.two_pow_pos _

theorem IsBearer.max_add_one {seqNumSize : UInt8} (h : IsBearer srbFlag seqNumSize) :
    (calculateMaxSeqNumForGivenSize seqNumSize).toNat + 1 = cycle seqNumSize := by
  rcases h with ⟨-, rfl⟩ | ⟨-, rfl | rfl⟩
  · rfl
  · rfl
  · rfl

theorem IsBearer.cycle_le {seqNumSize : UInt8} (h : IsBearer srbFlag seqNumSize) :
    cycle seqNumSize ≤ 4096 := by
  rcases h with ⟨-, rfl⟩ | ⟨-, rfl | rfl⟩
  · decide
  · decide
  · decide

theorem IsBearer.isSeqNumSizeValid (h : IsBearer srbFlag p.seqNumSize) :
    p.isSeqNumSizeValid = true := by
  unfold Entity.isSeqNumSizeValid
  rcases h with ⟨-, hsize⟩ | ⟨-, hsize | hsize⟩
  · rw [hsize]; rfl
  · rw [hsize]; rfl
  · rw [hsize]; rfl

theorem Shows.bump {seqNumSize : UInt8} (hbearer : IsBearer srbFlag seqNumSize) (h : Shows c hfn sn)
    (hlow : c.low < cycle seqNumSize) :
    Shows (bump (cycle seqNumSize) c)
      (if sn = calculateMaxSeqNumForGivenSize seqNumSize then hfn + 1 else hfn)
      (if sn = calculateMaxSeqNumForGivenSize seqNumSize then 0 else sn + 1) := by
  obtain ⟨rfl, hsn⟩ := h
  have hlast : sn = calculateMaxSeqNumForGivenSize seqNumSize ↔ c.low + 1 = cycle seqNumSize := by
    rw [← hbearer.max_add_one, Nat.add_right_cancel_iff, ← hsn, UInt16.toNat_inj]
  unfold SplitCounter.bump
  by_cases hmax : c.low + 1 = cycle seqNumSize
  · rw [if_pos (hlast.mpr hmax), if_pos (hlast.mpr hmax), if_pos hmax]
    exact ⟨(UInt32.ofNat_add c.high 1).symm, rfl⟩
  · rw [if_neg fun h ↦ hmax (hlast.mp h), if_neg fun h ↦ hmax (hlast.mp h), if_neg hmax]
    refine ⟨rfl, ?_⟩
    have hle := hbearer.cycle_le
    have hone : UInt16.toNat 1 = 1 := rfl
    change (sn + 1).toNat = c.low + 1
    rw [UInt16.toNat_add, hsn, hone]
    exact Nat.mod_eq_of_lt (by omega)

namespace Entity

theorem getNextTxSeqNumber_shows (hbearer : IsBearer srbFlag p.seqNumSize)
    (h : Shows c p.txHfn p.nextPdcpTxSn) (hlow : c.low < cycle p.seqNumSize) :
    p.getNextTxSeqNumber.1 = p.nextPdcpTxSn ∧
      Shows (bump (cycle p.seqNumSize) c) p.getNextTxSeqNumber.2.txHfn
        p.getNextTxSeqNumber.2.nextPdcpTxSn := by
  have hbump := h.bump hbearer hlow
  unfold getNextTxSeqNumber
  rw [if_pos hbearer.isSeqNumSizeValid]
  split at hbump
  · rename_i hmax
    rw [if_pos hmax]
    exact ⟨rfl, hbump⟩
  · rename_i hmax
    rw [if_neg hmax]
    exact ⟨rfl, hbump⟩

theorem advanceRxWindow_shows (hbearer : IsBearer srbFlag q.seqNumSize)
    (h : Shows c q.rxHfn q.nextPdcpRxSn) (hlow : c.low < cycle q.seqNumSize) :
    Shows (bump (cycle q.seqNumSize) c) q.advanceRxWindow.rxHfn q.advanceRxWindow.nextPdcpRxSn := by
  have hbump := h.bump hbearer hlow
  unfold advanceRxWindow
  rw [if_pos hbearer.isSeqNumSizeValid]
  split at hbump
  · rename_i hmax
    rw [if_pos hmax]
    exact hbump
  · rename_i hmax
    rw [if_neg hmax]
    exact hbump

/-- The sequence number of a PDU fits the field of its plane. -/
theorem assignSn_shows (mode : TransmissionMode) (hbearer : IsBearer srbFlag p.seqNumSize)
    (h : Shows c p.txHfn p.nextPdcpTxSn) (hlow : c.low < cycle p.seqNumSize) :
    (p.assignSn srbFlag mode).1 = p.nextPdcpTxSn ∧
      Shows (bump (cycle p.seqNumSize) c) (p.assignSn srbFlag mode).2.2.txHfn
        (p.assignSn srbFlag mode).2.2.nextPdcpTxSn := by
  obtain ⟨hsn, hshows⟩ := getNextTxSeqNumber_shows hbearer h hlow
  cases srbFlag with
  | false => exact ⟨hsn, hshows⟩
  | true =>
    refine ⟨?_, hshows⟩
    change p.getNextTxSeqNumber.1.toUInt8.toUInt16 = _
    have hfive : p.seqNumSize = 5 := by
      rcases hbearer with ⟨-, hfive⟩ | ⟨hdrb, -⟩
      · exact hfive
      · cases hdrb
    have hlt : p.nextPdcpTxSn.toNat < 32 := by
      rw [h.2]
      rw [hfive] at hlow
      exact hlow
    rw [hsn]
    apply UInt16.toNat_inj.mp
    rw [UInt8.toNat_toUInt16, UInt16.toNat_toUInt8]
    exact Nat.mod_eq_of_lt (hlt.trans (by decide))

/-- The requests that are not refused. -/
def Accepts (srbFlag : Bool) (rbId : UInt16) (sdu : Bytes) : Prop :=
  sdu.length ≠ 0 ∧ sdu.length ≤ maxIpPacketSize ∧ rbId.toNat < rbIdBound srbFlag

instance (srbFlag : Bool) (rbId : UInt16) (sdu : Bytes) : Decidable (Accepts srbFlag rbId sdu) :=
  inferInstanceAs (Decidable (_ ∧ _ ∧ _))

theorem dataReq_refused (osa : Osa) (p : Entity) (mode : TransmissionMode)
    (h : ¬Accepts srbFlag rbId sdu) : p.dataReq osa srbFlag rbId mode sdu = (p, none) := by
  unfold dataReq
  split
  · rfl
  · rename_i hne
    split
    · rfl
    · rename_i hlen
      refine if_pos (Nat.le_of_not_lt fun hrb ↦ ?_)
      exact h ⟨hne, Nat.le_of_not_lt hlen, hrb⟩

/-- What a request does to an entity that shows a counter: the PDU gets the counter and the
entity shows the next one. -/
theorem dataReq_accepted (hbearer : IsBearer srbFlag p.seqNumSize)
    (h : Shows c p.txHfn p.nextPdcpTxSn) (hlow : c.low < cycle p.seqNumSize) (osa : Osa)
    (mode : TransmissionMode) (haccepts : Accepts srbFlag rbId sdu) :
    ∃ p' s, p.dataReq osa srbFlag rbId mode sdu = (p', some s) ∧ s.sn.toNat = c.low ∧
      p'.seqNumSize = p.seqNumSize ∧ s.count = p'.getNextCountTx srbFlag s.sn ∧
      Shows (bump (cycle p.seqNumSize) c) p'.txHfn p'.nextPdcpTxSn := by
  obtain ⟨hsn, hshows⟩ := assignSn_shows mode hbearer h hlow
  obtain ⟨sn, hfn, hframe⟩ := p.assignSn_frame srbFlag mode
  have hsize : (p.assignSn srbFlag mode).2.2.seqNumSize = p.seqNumSize := by rw [hframe]
  have hmax : ¬(p.assignSn srbFlag mode).1 > calculateMaxSeqNumForGivenSize p.seqNumSize := by
    rw [hsn, gt_iff_lt, UInt16.not_lt, UInt16.le_iff_toNat_le, h.2]
    rw [← hbearer.max_add_one] at hlow
    exact Nat.le_of_lt_succ hlow
  obtain ⟨hne, hlen, hrb⟩ := haccepts
  unfold dataReq
  rw [if_neg hne, if_neg (Nat.not_lt.mpr hlen), if_neg (Nat.not_le.mpr hrb)]
  simp only
  rw [hsize, if_neg hmax]
  exact ⟨_, _, rfl, (congrArg UInt16.toNat hsn).trans h.2, hsize, rfl, hshows⟩

/-- The PDUs of a sequence of requests. -/
def sendAll (osa : Osa) (srbFlag : Bool) (rbId : UInt16) :
    Entity → List (TransmissionMode × Bytes) → List Sent
  | _, [] => []
  | p, (mode, sdu) :: requests =>
    match p.dataReq osa srbFlag rbId mode sdu with
    | (p', none) => sendAll osa srbFlag rbId p' requests
    | (p', some s) => s :: sendAll osa srbFlag rbId p' requests

end Entity

/-- A PDU that an entity sends when it shows the counter `k`. -/
def SentAt (osa : Osa) (srbFlag : Bool) (rbId : UInt16) (seqNumSize : UInt8) (k : ℕ) (s : Sent) :
    Prop :=
  ∃ (p p' : Entity) (mode : TransmissionMode) (sdu : Bytes),
    p.seqNumSize = seqNumSize ∧ Shows (ofNat (cycle seqNumSize) k) p.txHfn p.nextPdcpTxSn ∧
      p.dataReq osa srbFlag rbId mode sdu = (p', some s)

/-- The PDUs are sent with the counters from `k` on. -/
def SentFrom (osa : Osa) (srbFlag : Bool) (rbId : UInt16) (seqNumSize : UInt8) : ℕ → List Sent → Prop
  | _, [] => True
  | k, s :: sends =>
    SentAt osa srbFlag rbId seqNumSize k s ∧ SentFrom osa srbFlag rbId seqNumSize (k + 1) sends

namespace Entity

theorem ofNat_low_lt (seqNumSize : UInt8) (k : ℕ) :
    (ofNat (cycle seqNumSize) k).low < cycle seqNumSize :=
  Nat.mod_lt k (cycle_pos seqNumSize)

theorem sendAll_sentFrom {k : ℕ} (hbearer : IsBearer srbFlag p.seqNumSize)
    (h : Shows (ofNat (cycle p.seqNumSize) k) p.txHfn p.nextPdcpTxSn)
    (requests : List (TransmissionMode × Bytes)) :
    SentFrom osa srbFlag rbId p.seqNumSize k (sendAll osa srbFlag rbId p requests) := by
  induction requests generalizing p k with
  | nil => exact trivial
  | cons request requests ih =>
    obtain ⟨mode, sdu⟩ := request
    by_cases haccepts : Accepts srbFlag rbId sdu
    · obtain ⟨p', s, hsome, -, hsize, -, hshows⟩ :=
        dataReq_accepted hbearer h (ofNat_low_lt _ k) osa mode haccepts
      rw [sendAll, hsome]
      rw [bump_ofNat (cycle_pos _), ← hsize] at hshows
      have hrest := ih (hsize ▸ hbearer) hshows
      rw [hsize] at hrest
      exact ⟨⟨p, p', mode, sdu, rfl, h, hsome⟩, hrest⟩
    · rw [sendAll, dataReq_refused osa p mode haccepts]
      exact ih hbearer h

theorem sendAll_length {k : ℕ} (hbearer : IsBearer srbFlag p.seqNumSize)
    (h : Shows (ofNat (cycle p.seqNumSize) k) p.txHfn p.nextPdcpTxSn)
    (requests : List (TransmissionMode × Bytes)) :
    (sendAll osa srbFlag rbId p requests).length =
      requests.countP fun request ↦ Accepts srbFlag rbId request.2 := by
  induction requests generalizing p k with
  | nil => rfl
  | cons request requests ih =>
    obtain ⟨mode, sdu⟩ := request
    by_cases haccepts : Accepts srbFlag rbId sdu
    · obtain ⟨p', s, hsome, -, hsize, -, hshows⟩ :=
        dataReq_accepted hbearer h (ofNat_low_lt _ k) osa mode haccepts
      rw [bump_ofNat (cycle_pos _), ← hsize] at hshows
      rw [sendAll, hsome, List.countP_cons_of_pos (by simpa using haccepts), List.length_cons,
        ih (hsize ▸ hbearer) hshows]
    · rw [sendAll, dataReq_refused osa p mode haccepts,
        List.countP_cons_of_neg (by simpa using haccepts), ih hbearer h]

theorem initSeqNumbers_shows (p : Entity) :
    Shows (ofNat (cycle p.seqNumSize) 0) p.initSeqNumbers.txHfn p.initSeqNumbers.nextPdcpTxSn := by
  rw [ofNat_zero]
  exact ⟨rfl, rfl⟩

theorem sendAll_init (hbearer : IsBearer srbFlag p.seqNumSize)
    (requests : List (TransmissionMode × Bytes)) :
    SentFrom osa srbFlag rbId p.seqNumSize 0 (p.initSeqNumbers.sendAll osa srbFlag rbId requests) := by
  have hbearer' : IsBearer srbFlag p.initSeqNumbers.seqNumSize := hbearer
  exact sendAll_sentFrom hbearer' (initSeqNumbers_shows p) requests

end Entity

theorem SentFrom.get {seqNumSize : UInt8} {k i : ℕ} {sends : List Sent}
    (h : SentFrom osa srbFlag rbId seqNumSize k sends) (hs : sends[i]? = some s) :
    SentAt osa srbFlag rbId seqNumSize (k + i) s := by
  induction sends generalizing k i with
  | nil => cases hs
  | cons t sends ih =>
    cases i with
    | zero =>
      obtain rfl := Option.some.inj hs
      exact h.1
    | succ i =>
      have := ih h.2 hs
      rwa [Nat.add_right_comm] at this

/-- The bits of the COUNT for the sequence number. -/
def snBits (srbFlag : Bool) : ℕ := if srbFlag then 5 else 12

theorem hfn_or_sn (bits : ℕ) {high sn : ℕ} (hsn : sn < 2 ^ bits) :
    high * 2 ^ bits ||| sn = high * 2 ^ bits + sn := by
  rw [← Nat.shiftLeft_eq, ← Nat.shiftLeft_add_eq_or_of_lt hsn]

theorem IsBearer.count_toNat (hbearer : IsBearer srbFlag p.seqNumSize) (hfn : ℕ)
    (hsn : sn.toNat < cycle p.seqNumSize) :
    (p.count srbFlag (UInt32.ofNat hfn) sn).toNat =
      (hfn * 2 ^ snBits srbFlag + sn.toNat) % 2 ^ 32 := by
  cases srbFlag with
  | true =>
    have hlt : sn.toNat < 32 := by
      rcases hbearer with ⟨-, hfive⟩ | ⟨hdrb, -⟩
      · rwa [hfive] at hsn
      · cases hdrb
    have hmask : sn.toNat &&& 31 = sn.toNat := by
      rw [Nat.and_two_pow_sub_one_eq_mod sn.toNat 5, Nat.mod_eq_of_lt hlt]
    have hhigh : hfn % 4294967296 * 32 % 4294967296 = hfn % 134217728 * 32 := by omega
    have hjoin : hfn % 134217728 * 32 ||| sn.toNat = hfn % 134217728 * 32 + sn.toNat := hfn_or_sn 5 hlt
    have hbits : 2 ^ snBits true = 32 := rfl
    simp only [Entity.count, if_true, UInt32.toNat_or, UInt32.toNat_shiftLeft, UInt32.toNat_ofNat',
      UInt32.toNat_ofNat, UInt16.toNat_toUInt32, UInt16.toNat_and, UInt16.toNat_ofNat,
      Nat.reducePow, Nat.reduceMod, Nat.shiftLeft_eq, hmask, hhigh, hjoin, hbits]
    omega
  | false =>
    have hlt : sn.toNat < 4096 := hsn.trans_le hbearer.cycle_le
    have hseven : p.seqNumSize ≠ snSizeLen7bits := by
      rcases hbearer with ⟨hsrb, -⟩ | ⟨-, hsize | hsize⟩
      · cases hsrb
      · rw [hsize]; decide
      · rw [hsize]; decide
    have hmask : sn.toNat &&& 4095 = sn.toNat := by
      rw [Nat.and_two_pow_sub_one_eq_mod sn.toNat 12, Nat.mod_eq_of_lt hlt]
    have hhigh : hfn % 4294967296 * 4096 % 4294967296 = hfn % 1048576 * 4096 := by omega
    have hjoin : hfn % 1048576 * 4096 ||| sn.toNat = hfn % 1048576 * 4096 + sn.toNat := hfn_or_sn 12 hlt
    have hbits : 2 ^ snBits false = 4096 := rfl
    simp only [Entity.count, Bool.false_eq_true, if_false, if_neg hseven, UInt32.toNat_or,
      UInt32.toNat_shiftLeft, UInt32.toNat_ofNat', UInt32.toNat_ofNat, UInt16.toNat_toUInt32,
      UInt16.toNat_and, UInt16.toNat_ofNat, Nat.reducePow, Nat.reduceMod, Nat.shiftLeft_eq, hmask,
      hhigh, hjoin, hbits]
    omega

/-- The numbers of the PDU that is sent with the counter `k`: the HFN is advanced before the
COUNT is formed. -/
theorem SentAt.numbers {seqNumSize : UInt8} {k : ℕ} (hbearer : IsBearer srbFlag seqNumSize)
    (h : SentAt osa srbFlag rbId seqNumSize k s) :
    s.sn.toNat = k % cycle seqNumSize ∧
      s.count.toNat = ((k + 1) / cycle seqNumSize * 2 ^ snBits srbFlag + k % cycle seqNumSize) % 2 ^ 32 := by
  obtain ⟨p, p', mode, sdu, rfl, hshows, hsome⟩ := h
  by_cases haccepts : Entity.Accepts srbFlag rbId sdu
  · obtain ⟨p'', s', hsome', hsn, hsize, hcount, hshows'⟩ :=
      Entity.dataReq_accepted hbearer hshows (Entity.ofNat_low_lt _ k) osa mode haccepts
    rw [hsome'] at hsome
    obtain ⟨rfl, hs⟩ := Prod.mk.inj hsome
    obtain rfl := Option.some.inj hs
    rw [bump_ofNat (cycle_pos _)] at hshows'
    refine ⟨hsn, ?_⟩
    have hlt : s'.sn.toNat < cycle p''.seqNumSize := by
      rw [hsn, hsize]
      exact Entity.ofNat_low_lt _ k
    rw [hcount, Entity.getNextCountTx, hshows'.1, IsBearer.count_toNat (hsize ▸ hbearer) _ hlt, hsn]
    rfl
  · rw [Entity.dataReq_refused osa p mode haccepts] at hsome
    cases hsome

end EdgeSlice.Pdcp
