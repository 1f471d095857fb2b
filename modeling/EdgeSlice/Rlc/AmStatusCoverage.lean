import EdgeSlice.Rlc.AmStatusReport

namespace EdgeSlice.Rlc

/-- The NACK is for the byte `b` of its PDU. -/
def Nack.Covers (n : Nack) (b : ℕ) : Prop :=
  n.e2 = false ∨ n.soStart ≤ b ∧ (n.soEnd = rlcAmStatusPduSoEndAllBytes ∨ b ≤ n.soEnd)

/-- The byte `b` of its PDU is in the segment. -/
def AmRxPdu.Holds (p : AmRxPdu) (b : ℕ) : Prop :=
  (p.pduInfo.so : ℤ) ≤ b ∧ (b : ℤ) < p.pduInfo.so + p.pduInfo.payloadSize

namespace Request

variable {sn b : ℕ} {soStart soEnd : ℤ}

theorem part_soStart (sn : ℕ) (soStart soEnd : ℤ) (h : 0 ≤ soStart) (h' : soStart < 2 ^ 15) :
    ((Nack.ofPart sn soStart soEnd).soStart : ℤ) = soStart := by
  have heq : (Nack.ofPart sn soStart soEnd).soStart = (soStart % 2 ^ 15).toNat := rfl
  rw [heq, Int.emod_eq_of_lt h h', Int.toNat_of_nonneg h]

theorem part_soEnd (sn : ℕ) (soStart soEnd : ℤ) (h : 0 ≤ soEnd) (h' : soEnd < 2 ^ 15) :
    ((Nack.ofPart sn soStart soEnd).soEnd : ℤ) = soEnd := by
  have heq : (Nack.ofPart sn soStart soEnd).soEnd = (soEnd % 2 ^ 15).toNat := rfl
  rw [heq, Int.emod_eq_of_lt h h', Int.toNat_of_nonneg h]

/-- The request is for the byte `b`. -/
def Covers (q : Request) (b : ℕ) : Prop := ∃ n ∈ q.nack, n.nackSn = q.sn ∧ n.Covers b

theorem pdu_covers (hsn : sn < 1024) (b : ℕ) : (pdu sn).Covers b :=
  ⟨_, rfl, Nat.mod_eq_of_lt hsn, .inl rfl⟩

/-- A part in the middle of a PDU. -/
theorem part_covers (hsn : sn < 1024) (hstart : 0 ≤ soStart) (hb : soStart ≤ b) (hb' : b ≤ soEnd)
    (hend : soEnd < 2 ^ 15) : (part sn soStart soEnd).Covers b := by
  refine ⟨_, rfl, Nat.mod_eq_of_lt hsn, .inr ⟨?_, .inr ?_⟩⟩
  · have heq := part_soStart sn soStart soEnd hstart (by omega)
    omega
  · have heq := part_soEnd sn soStart soEnd (by omega) hend
    omega

/-- The end of a PDU. -/
theorem last_covers (hsn : sn < 1024) (hstart : 0 ≤ soStart) (hstart' : soStart < 2 ^ 15) (hb : soStart ≤ b) :
    (part sn soStart rlcAmStatusPduSoEndAllBytes).Covers b := by
  refine ⟨_, rfl, Nat.mod_eq_of_lt hsn, .inr ⟨?_, .inl rfl⟩⟩
  have heq := part_soStart sn soStart rlcAmStatusPduSoEndAllBytes hstart hstart'
  omega

end Request

namespace AmReceiver

open Budget StatusReport

variable {e : AmReceiver} {len : ℕ → ℕ} {sn b d : ℕ} {pdu : AmRxPdu} {pdus : List AmRxPdu} {q : Request}

/-- The byte `b` of a PDU has been received. -/
def Has (e : AmReceiver) (sn b : ℕ) : Prop := ∃ p ∈ e.receiverBuffer, p.pduInfo.sn = sn ∧ p.Holds b

/-- A receiver of PDUs with `len sn` bytes. -/
structure Consistent (len : ℕ → ℕ) (e : AmReceiver) : Prop where
  vrR_lt : e.vrR < 1024
  vrMs_lt : e.vrMs < 1024
  /-- The bytes of a PDU have 15 bits for their offsets, and the last offset means all bytes. -/
  len_le : ∀ sn, len sn ≤ rlcAmStatusPduSoEndAllBytes
  listed : e.Listed len e.receiverBuffer
  complete : ∀ p ∈ e.receiverBuffer, p.allSegmentsReceived → ∀ b < len p.pduInfo.sn, e.Has p.pduInfo.sn b
  /-- VR(R) follows the last PDU that has been received completely in sequence. -/
  missing : e.vrR ≠ e.vrMs → ∃ b < len e.vrR, ¬e.Has e.vrR b

/-- The segments of a PDU, in their order. -/
structure Segments (e : AmReceiver) (len : ℕ → ℕ) (sn : ℕ) (pdus : List AmRxPdu) : Prop
    extends e.Listed len pdus where
  sn_eq : ∀ p ∈ pdus, p.pduInfo.sn = sn

theorem Segments.tail (h : e.Segments len sn (pdu :: pdus)) : e.Segments len sn pdus where
  toListed := h.toListed.tail
  sn_eq p hp := h.sn_eq p (List.mem_cons_of_mem _ hp)

theorem Segments.le_so (h : e.Segments len sn (pdu :: pdus)) {p : AmRxPdu} (hp : p ∈ pdus) :
    pdu.pduInfo.so + pdu.pduInfo.payloadSize ≤ p.pduInfo.so := by
  rcases (List.pairwise_cons.mp h.sorted).1 p hp with hlt | hsame
  · rw [h.sn_eq pdu List.mem_cons_self, h.sn_eq p (List.mem_cons_of_mem _ hp)] at hlt
    exact absurd hlt (lt_irrefl _)
  · exact hsame.2

theorem Segments.rf (h : e.Segments len sn (pdu :: pdus)) (hall : pdu.allSegmentsReceived = false) :
    pdu.pduInfo.rf := by
  by_contra hwhole
  have hyes := ((h.stored pdu List.mem_cons_self).whole (Bool.eq_false_iff.mpr hwhole)).1
  rw [hall] at hyes
  cases hyes

/-- Behind a segment there are only segments. -/
theorem Segments.rf_of_behind (h : e.Segments len sn (pdu :: pdus)) {p : AmRxPdu} (hp : p ∈ pdus) :
    p.pduInfo.rf := by
  by_contra hwhole
  have hso := ((h.stored p (List.mem_cons_of_mem _ hp)).whole (Bool.eq_false_iff.mpr hwhole)).2.1
  have hpos := (h.stored pdu List.mem_cons_self).payloadSize_pos
  have hle := h.le_so hp
  omega

/-- A segment that is not the end of its PDU does not have the LSF. -/
theorem Segments.lsf_eq_false (h : e.Segments len sn (pdu :: pdus)) (hrf : pdu.pduInfo.rf)
    (hlt : pdu.pduInfo.so + pdu.pduInfo.payloadSize < len sn) : pdu.pduInfo.lsf = false := by
  refine Bool.eq_false_iff.mpr fun hlsf ↦ ?_
  have hend := ((h.stored pdu List.mem_cons_self).lsf_iff hrf).mp hlsf
  rw [h.sn_eq pdu List.mem_cons_self] at hend
  omega

/-- What has not been received behind a segment is requested. -/
theorem segmentRequests_covers {waitedSo : ℤ} (hsn : sn < 1024) (hlen : len sn ≤ rlcAmStatusPduSoEndAllBytes)
    (hsegments : e.Segments len sn (pdu :: pdus)) (hrf : pdu.pduInfo.rf) (hwaited : 0 ≤ waitedSo)
    (hwaited' : waitedSo ≤ pdu.pduInfo.so + pdu.pduInfo.payloadSize)
    (hb : pdu.pduInfo.so + pdu.pduInfo.payloadSize ≤ b) (hb' : b < len sn) (hno : ∀ p ∈ pdus, ¬p.Holds b) :
    ∃ q ∈ segmentRequests sn pdus pdu.pduInfo.lsf waitedSo, q.Covers b := by
  rw [rlcAmStatusPduSoEndAllBytes] at hlen
  induction pdus generalizing pdu waitedSo with
  | nil =>
    rw [hsegments.lsf_eq_false hrf (by omega), segmentRequests]
    exact ⟨_, List.mem_cons_self, Request.last_covers hsn hwaited (by omega) (by omega)⟩
  | cons p pdus ih =>
    obtain ⟨hp, hpdus⟩ := List.forall_mem_cons.mp hno
    have hle := hsegments.le_so (p := p) List.mem_cons_self
    have hpos := (hsegments.stored p (List.mem_cons_of_mem _ List.mem_cons_self)).payloadSize_pos
    have hend := (hsegments.stored p (List.mem_cons_of_mem _ List.mem_cons_self)).end_le
    rw [hsegments.sn_eq p (List.mem_cons_of_mem _ List.mem_cons_self)] at hend
    have hrf' := hsegments.rf_of_behind (p := p) List.mem_cons_self
    rw [hsegments.lsf_eq_false hrf (by omega), segmentRequests]
    have hbehind : b < p.pduInfo.so ∨ p.pduInfo.so + p.pduInfo.payloadSize ≤ b := by
      rw [AmRxPdu.Holds] at hp
      omega
    rcases hbehind with hbefore | hbehind
    · -- the byte is in the hole before this segment
      rw [if_pos (by omega)]
      exact ⟨_, List.mem_cons_self, Request.part_covers hsn hwaited (by omega) (by omega) (by omega)⟩
    · by_cases hhole : waitedSo < p.pduInfo.so
      · rw [if_pos hhole]
        obtain ⟨q, hq, hcovers⟩ := ih hsegments.tail hrf' hwaited (by omega) hbehind hpdus
        exact ⟨q, List.mem_cons_of_mem _ hq, hcovers⟩
      · rw [if_neg hhole]
        exact ih hsegments.tail hrf' (by omega) (by omega) hbehind hpdus

/-- What has not been received of a PDU is requested. -/
theorem pduRequests_covers (hsn : sn < 1024) (hlen : len sn ≤ rlcAmStatusPduSoEndAllBytes)
    (hsegments : e.Segments len sn pdus) (hall : ∀ p ∈ pdus, p.allSegmentsReceived → ∃ p ∈ pdus, p.Holds b)
    (hb : b < len sn) (hno : ∀ p ∈ pdus, ¬p.Holds b) : ∃ q ∈ pduRequests sn pdus, q.Covers b := by
  cases pdus with
  | nil => exact ⟨_, List.mem_cons_self, Request.pdu_covers hsn b⟩
  | cons pdu pdus =>
    obtain ⟨hpdu, hpdus⟩ := List.forall_mem_cons.mp hno
    have hpart : pdu.allSegmentsReceived = false := by
      refine Bool.eq_false_iff.mpr fun hyes ↦ ?_
      obtain ⟨p, hp, hholds⟩ := hall pdu List.mem_cons_self hyes
      exact hno p hp hholds
    have hpos := (hsegments.stored pdu List.mem_cons_self).payloadSize_pos
    have hend := (hsegments.stored pdu List.mem_cons_self).end_le
    rw [hsegments.sn_eq pdu List.mem_cons_self] at hend
    rw [rlcAmStatusPduSoEndAllBytes] at hlen
    rw [pduRequests, hpart, if_neg Bool.false_ne_true, leadingRequests]
    have hbehind : b < pdu.pduInfo.so ∨ pdu.pduInfo.so + pdu.pduInfo.payloadSize ≤ b := by
      rw [AmRxPdu.Holds] at hpdu
      omega
    rcases hbehind with hbefore | hbehind
    · rw [if_pos (by omega)]
      refine ⟨_, List.mem_cons_of_mem _ List.mem_cons_self, ?_⟩
      exact Request.part_covers hsn le_rfl (by omega) (by omega) (by omega)
    · obtain ⟨q, hq, hcovers⟩ := segmentRequests_covers hsn hlen hsegments (hsegments.rf hpart) (by omega) le_rfl
        hbehind hb hpdus
      exact ⟨q, List.mem_cons_of_mem _ (List.mem_append_right _ hq), hcovers⟩

end AmReceiver

end EdgeSlice.Rlc
