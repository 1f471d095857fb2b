import EdgeSlice.Pdcp.CountAgreement

namespace EdgeSlice.Pdcp

open SplitCounter

variable {osa : Osa} {p q : Entity} {toGtpu : Bool} {rbId : UInt16} {s : Sent} {sn : UInt16} {k : ℕ}

namespace Entity

/-- A receiver of an AM DRB of twelve bits that expects the PDU `k` and has last submitted the
number `last`. -/
structure AmExpects (q : Entity) (k last : ℕ) : Prop where
  seqNumSize : q.seqNumSize = 12
  rlcMode : q.rlcMode = .am
  expects : q.Expects k
  lastSubmitted : q.lastSubmittedPdcpRxSn.toNat = last

/-- The numbers that are discarded around the last submitted one. -/
def Discards (last sn : ℕ) : Prop := last + 2048 < sn ∨ sn ≤ last ∧ last < sn + 2048

theorem AmExpects.isBearer {last : ℕ} (h : q.AmExpects k last) : IsBearer false q.seqNumSize :=
  .inr ⟨rfl, .inr h.seqNumSize⟩

theorem AmExpects.isRxSeqNumberValid_eq {last : ℕ} (h : q.AmExpects k last) (hsn : sn.toNat = k % 4096) :
    isRxSeqNumberValid sn q false = amWindow sn 2048 q := by
  have hsize := h.seqNumSize
  have hlt : sn.toNat < cycle q.seqNumSize := by
    rw [hsn, hsize]
    exact Nat.mod_lt k (by decide)
  have hseven : q.seqNumSize ≠ 7 := by
    rw [hsize]
    decide
  unfold isRxSeqNumberValid
  rw [if_neg (isSeqNum_valid h.isBearer hlt)]
  simp only [Bool.false_eq_true, if_false, if_neg hseven, h.rlcMode]
  rfl

/-- The PDU that is expected is accepted but where its number is discarded. -/
theorem AmExpects.amWindow {last : ℕ} (h : q.AmExpects k last) (hsn : sn.toNat = k % 4096) :
    (Discards last (k % 4096) → (amWindow sn 2048 q).1 = false) ∧
    (¬Discards last (k % 4096) → (amWindow sn 2048 q).1 = true ∧
      (amWindow sn 2048 q).2.Expects (k + 1) ∧ (amWindow sn 2048 q).2.rxHfnOffset = 0) := by
  have hnext : q.nextPdcpRxSn = sn := by
    apply UInt16.toNat_inj.mp
    rw [hsn, h.expects.2, h.seqNumSize]
    rfl
  have hcond : (diff sn q.lastSubmittedPdcpRxSn > ((2048 : UInt16).toNat : ℤ) ∨
      (0 ≤ diff q.lastSubmittedPdcpRxSn sn ∧
        diff q.lastSubmittedPdcpRxSn sn < ((2048 : UInt16).toNat : ℤ))) ↔ Discards last (k % 4096) := by
    have hwindow : UInt16.toNat 2048 = 2048 := rfl
    unfold diff Discards
    rw [hwindow, hsn, h.lastSubmitted]
    omega
  have hself : diff sn sn = 0 := sub_self _
  constructor
  · intro hdiscard
    unfold Entity.amWindow
    simp only
    rw [if_pos (hcond.mpr hdiscard)]
    split
    · rfl
    · rfl
  · intro haccept
    have hpos : ¬(diff sn sn > ((2048 : UInt16).toNat : ℤ)) := by
      rw [hself]
      decide
    have hpos' : ¬(diff sn sn ≥ ((2048 : UInt16).toNat : ℤ)) := by
      rw [hself]
      decide
    unfold Entity.amWindow
    simp only
    rw [if_neg fun hc ↦ haccept (hcond.mp hc), hnext, if_neg hpos, if_neg hpos',
      if_pos (UInt16.le_refl sn)]
    have hexpects := h.expects
    rw [Expects, hnext] at hexpects
    have hbearer : IsBearer false q.seqNumSize := h.isBearer
    exact ⟨rfl, advanceRxWindow_expects hbearer hexpects, advanceRxWindow_offset _⟩

/-- Only the delivery to the IP layer keeps the number of the last PDU. -/
theorem AmExpects.afterInd {last : ℕ} (h : q.AmExpects k last) (hsn : sn.toNat = k % 4096)
    (haccept : ¬Discards last (k % 4096)) :
    (q.afterInd false toGtpu sn).AmExpects (k + 1) (if toGtpu then last else k % 4096) := by
  obtain ⟨-, hexpects, -⟩ := (h.amWindow hsn).2 haccept
  obtain ⟨_, _, _, _, hframe⟩ := amWindow_frame sn 2048 q
  unfold Entity.afterInd
  rw [h.isRxSeqNumberValid_eq hsn]
  have hsize : (Entity.amWindow sn 2048 q).2.seqNumSize = 12 := by
    rw [hframe]
    exact h.seqNumSize
  have hmode : (Entity.amWindow sn 2048 q).2.rlcMode = .am := by
    rw [hframe]
    exact h.rlcMode
  have hlast : (Entity.amWindow sn 2048 q).2.lastSubmittedPdcpRxSn.toNat = last := by
    rw [hframe]
    exact h.lastSubmitted
  generalize (Entity.amWindow sn 2048 q).2 = q' at hexpects hsize hmode hlast
  cases toGtpu with
  | true =>
    by_cases hsecurity : q'.securityActivated = 1
    · simp only [if_pos hsecurity]
      exact ⟨hsize, hmode, hexpects, hlast⟩
    · simp only [if_neg hsecurity]
      exact ⟨hsize, hmode, hexpects, hlast⟩
  | false =>
    by_cases hsecurity : q'.securityActivated = 1
    · simp only [if_pos hsecurity, hmode, and_self, if_true]
      exact ⟨hsize, rfl, hexpects, hsn⟩
    · simp only [if_neg hsecurity, hmode, and_self, if_true]
      exact ⟨hsize, rfl, hexpects, hsn⟩

theorem AmExpects.dataInd {last : ℕ} (h : q.AmExpects k last) (hs : SentAt osa false rbId 12 k s)
    (hrb : rbId.toNat % maxDrb ≠ 0) (toGtpu : Bool) :
    ∃ ind, q.dataInd osa false rbId toGtpu s.pdu = (q.afterInd false toGtpu s.sn, some ind) ∧
      (Discards last (k % 4096) → ind.valid = false) ∧
      (¬Discards last (k % 4096) → ind.valid = true ∧ ind.count = s.count ∧
        (q.afterInd false toGtpu s.sn).AmExpects (k + 1) (if toGtpu then last else k % 4096)) := by
  have hs' : SentAt osa false rbId q.seqNumSize k s := by
    rw [h.seqNumSize]
    exact hs
  have htwelve : IsBearer false 12 := .inr ⟨rfl, .inr rfl⟩
  obtain ⟨hsn, hcount⟩ := hs.numbers htwelve
  have hsn' : s.sn.toNat = k % 4096 := hsn
  obtain ⟨ind, hind, hvalid, hindCount⟩ := hs'.dataInd (.inr ⟨rfl, h.seqNumSize⟩) hrb toGtpu
  rw [h.isRxSeqNumberValid_eq hsn'] at hvalid hindCount
  refine ⟨ind, hind, ?_, ?_⟩
  · intro hdiscard
    exact hvalid.trans ((h.amWindow hsn').1 hdiscard)
  · intro haccept
    obtain ⟨hwindow, hexpects, hoffset⟩ := (h.amWindow hsn').2 haccept
    obtain ⟨_, _, _, _, hframe⟩ := amWindow_frame s.sn 2048 q
    have hsize : (Entity.amWindow s.sn 2048 q).2.seqNumSize = 12 := by
      rw [hframe]
      exact h.seqNumSize
    refine ⟨hvalid.trans hwindow, ?_, h.afterInd hsn' haccept⟩
    apply UInt32.toNat_inj.mp
    rw [hindCount, getNextCountRx_toNat (hsize ▸ htwelve) hexpects hoffset (hsize ▸ hsn), hcount, hsize]

/-- All PDUs are accepted with the COUNT of the sender. -/
def Agree (exchanged : List (Sent × Indication)) : Prop :=
  ∀ x ∈ exchanged, x.2.valid = true ∧ x.2.count = x.1.count

theorem receiveAll_local {sends : List Sent} (hrb : rbId.toNat % maxDrb ≠ 0)
    (h : q.AmExpects k ((k + 4095) % 4096)) (hsends : SentFrom osa false rbId 12 k sends) :
    Agree (receiveAll osa false rbId false q (sends.map (·, false))) := by
  induction sends generalizing q k with
  | nil => exact List.forall_mem_nil _
  | cons s sends ih =>
    obtain ⟨ind, hind, -, haccept⟩ := h.dataInd hsends.1 hrb false
    have hfree : ¬Discards ((k + 4095) % 4096) (k % 4096) := by
      unfold Discards
      omega
    obtain ⟨hvalid, hcount, hnext⟩ := haccept hfree
    have hlast : k % 4096 = (k + 1 + 4095) % 4096 := by omega
    rw [List.map_cons, receiveAll, if_neg Bool.false_ne_true, hind]
    rw [if_neg Bool.false_ne_true, hlast] at hnext
    exact List.forall_mem_cons.mpr ⟨⟨hvalid, hcount⟩, ih hnext hsends.2⟩

theorem receiveAll_gtpu {sends : List Sent} (hrb : rbId.toNat % maxDrb ≠ 0)
    (h : q.AmExpects k 4095) (hk : k ≤ 2048) (hsends : SentFrom osa false rbId 12 k sends) :
    Agree (receiveAll osa false rbId true q (sends.map (·, false))) ↔ k + sends.length ≤ 2048 := by
  induction sends generalizing q k with
  | nil => exact ⟨fun _ ↦ hk, fun _ ↦ List.forall_mem_nil _⟩
  | cons s sends ih =>
    obtain ⟨ind, hind, hdiscard, haccept⟩ := h.dataInd hsends.1 hrb true
    rw [List.map_cons, receiveAll, if_neg Bool.false_ne_true, hind, List.length_cons]
    by_cases hlt : k < 2048
    · have hfree : ¬Discards 4095 (k % 4096) := by
        unfold Discards
        omega
      obtain ⟨hvalid, hcount, hnext⟩ := haccept hfree
      have hrest := ih hnext hlt hsends.2
      have hlen : k + (sends.length + 1) = k + 1 + sends.length := by omega
      rw [hlen, ← hrest]
      constructor
      · intro hall
        exact (List.forall_mem_cons.mp hall).2
      · intro hall
        exact List.forall_mem_cons.mpr ⟨⟨hvalid, hcount⟩, hall⟩
    · have hbound : Discards 4095 (k % 4096) := by
        unfold Discards
        omega
      constructor
      · intro hall
        have hvalid := (List.forall_mem_cons.mp hall).1.1
        rw [hdiscard hbound] at hvalid
        cases hvalid
      · intro hlen
        omega

/-- A receiver of an AM DRB. -/
def amDrb : Entity := { calloc with seqNumSize := 12, rlcMode := .am }

end Entity

end EdgeSlice.Pdcp
