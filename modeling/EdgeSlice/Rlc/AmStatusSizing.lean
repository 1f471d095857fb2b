import EdgeSlice.Rlc.AmStatusOccupancy
import EdgeSlice.Rlc.AmStatusOrder
import EdgeSlice.Rlc.AmStatusRoundTrip
import EdgeSlice.Rlc.AmStatusSound

namespace EdgeSlice.Rlc

theorem Nack.map_width_clearLastE1 (nacks : List Nack) : (clearLastE1 nacks).map width = nacks.map width := by
  induction nacks with
  | nil => rfl
  | cons n nacks ih =>
    cases nacks with
    | nil => rfl
    | cons m nacks => rw [clearLastE1, List.map_cons, ih, ← List.map_cons]

namespace AmReceiver

open Budget StatusReport ControlPduInfo

variable {e : AmReceiver} {len : ℕ → ℕ} {sn b d n room : ℕ} {pdu : AmRxPdu} {pdus : List AmRxPdu}

/-- The bits of a report with everything that is missing. -/
def reportBits (e : AmReceiver) : ℕ := statusHeaderBits + entryBits e.missingRequests

/-- The size that is asked for is the one of a complete report. -/
theorem Consistent.getStatusPduBufferOccupancy_eq (he : e.Consistent len) :
    e.getStatusPduBufferOccupancy = some ((e.reportBits + 7) / 8) := by
  have hdiv (nbBits : ℕ) : (nbBits + 7) >>> 3 = (nbBits + 7) / 8 := Nat.shiftRight_eq_div_pow _ 3
  rw [getStatusPduBufferOccupancy, reportBits, missingRequests]
  by_cases hne : e.vrR = e.vrMs
  · simp [hne, hdiv, reach_of_nothing he (.inl hne), requests]
  · have hcount := countLoop_eq (d := 0) statusHeaderBits he.vrR_lt he.vrMs_lt he.listed
      (fun p _ ↦ Nat.zero_le _) (Nat.zero_le _) (Nat.lt_succ_self e.receiverBuffer.length)
    rw [snAt_zero he.vrR_lt, Nat.sub_zero] at hcount
    simp [hne, hdiv, hcount]

/-- The requests for a PDU all fit if their entries do; without an entry there must be room for one. -/
theorem pduRequests_unmet :
    unmet Request.bits Request.used room (pduRequests sn pdus) = none ↔
      entryBits (pduRequests sn pdus) ≤ room ∧ (pduRequests sn pdus = [.room sn] → Nack.partBits ≤ room) := by
  cases pdus with
  | nil =>
    have hne : Request.pdu sn ≠ .room sn := fun h ↦ by cases congrArg Request.nack h
    simp [pduRequests, unmet_cons_eq_none, hne, show (Request.pdu sn).bits = Nack.pduBits from rfl]
  | cons pdu pdus =>
    cases hall : pdu.allSegmentsReceived with
    | true => simp [pduRequests, hall]
    | false =>
      have hparts (q : Request) (hq : q ∈ leadingRequests sn pdu.pduInfo.so ++ segmentRequests sn pdus
          pdu.pduInfo.lsf (pdu.pduInfo.so + pdu.pduInfo.payloadSize)) := part_of_mem hq
      rw [pduRequests, hall, if_neg Bool.false_ne_true, unmet_cons_eq_none]
      generalize leadingRequests sn pdu.pduInfo.so ++ segmentRequests sn pdus pdu.pduInfo.lsf
        (pdu.pduInfo.so + pdu.pduInfo.payloadSize) = parts at hparts
      have hused : ∀ q ∈ parts, q.used = q.bits := fun q hq ↦ by
        obtain ⟨soStart, soEnd, rfl⟩ := hparts q hq
        rfl
      have hbits : (Request.room sn).bits = Nack.partBits := rfl
      rw [used_room, Nat.sub_zero, unmet_eq_none_of_eq hused, entryBits_cons, used_room, Nat.zero_add, hbits]
      cases parts with
      | nil => simp [entryBits]
      | cons q qs =>
        obtain ⟨soStart, soEnd, rfl⟩ := hparts q List.mem_cons_self
        have hpart : Nack.partBits ≤ entryBits (Request.part sn soStart soEnd :: qs) := by simp
        constructor
        · rintro ⟨-, hle⟩
          exact ⟨hle, fun h ↦ by simp at h⟩
        · rintro ⟨hle, -⟩
          exact ⟨hpart.trans hle, hle⟩

/-- The requests for the PDU that is `k` after VR(R). -/
def requestsAt (e : AmReceiver) (k : ℕ) : List Request :=
  pduRequests (snAt e.vrR k) (e.receiverBuffer.filter fun p ↦ p.pduInfo.sn = snAt e.vrR k)

/-- The requests for the first PDUs all fit if their entries do, and there is room for one in the place of each PDU
without an entry. -/
theorem requests_unmet :
    unmet Request.bits Request.used room (requests e.vrR e.receiverBuffer 0 n) = none ↔
      entryBits (requests e.vrR e.receiverBuffer 0 n) ≤ room ∧ ∀ d < n,
        e.requestsAt d = [.room (snAt e.vrR d)] →
          entryBits (requests e.vrR e.receiverBuffer 0 d) + Nack.partBits ≤ room := by
  induction n with
  | zero => simp [requests]
  | succ n ih =>
    have hlast : requests e.vrR e.receiverBuffer n 1 = e.requestsAt n := requests_one _ _ _
    rw [requests_add, Nat.zero_add, hlast, unmet_append_eq_none, ih, requestsAt, pduRequests_unmet,
      entryBits_append, Nat.forall_lt_succ_right]
    simp only [requestsAt]
    rw [show ((requests e.vrR e.receiverBuffer 0 n).map Request.used).sum =
      entryBits (requests e.vrR e.receiverBuffer 0 n) from rfl]
    constructor
    · rintro ⟨⟨hbefore, hroom⟩, hle, hpart⟩
      refine ⟨by omega, hroom, fun h ↦ ?_⟩
      have hfree := hpart h
      have hpos : 0 < Nack.partBits := by decide
      omega
    · rintro ⟨hle, hroom, hpart⟩
      refine ⟨⟨by omega, hroom⟩, by omega, fun h ↦ ?_⟩
      have hfree := hpart h
      omega

/-- All of a PDU is in the receive list, but it has not been marked as complete. -/
def Unmarked (len : ℕ → ℕ) (e : AmReceiver) (sn : ℕ) : Prop :=
  (∃ p ∈ e.receiverBuffer.find? fun p ↦ p.pduInfo.sn = sn, p.allSegmentsReceived = false) ∧
    ∀ b < len sn, e.Has sn b

/-- A NACK is for a byte of its PDU. -/
theorem covers_of_inPdu {size : ℕ} {nack : Nack} (hsize : 0 < size) (h : nack.InPdu size) :
    nack.soStart < size ∧ nack.Covers nack.soStart := by
  rcases h with ⟨he2, hzero, -⟩ | ⟨-, -, hlt, hle, -⟩
  · exact ⟨by omega, .inl he2⟩
  · exact ⟨hlt, .inr ⟨le_rfl, .inr hle⟩⟩

/-- There is no entry for a PDU that is complete. -/
theorem pduRequests_of_complete (hsn : sn < 1024) (hlen : len sn ≤ rlcAmStatusPduSoEndAllBytes)
    (hsegments : e.Segments len sn (pdu :: pdus)) (hall : pdu.allSegmentsReceived = false)
    (hcomplete : ∀ b < len sn, ∃ p ∈ pdu :: pdus, p.Holds b) : pduRequests sn (pdu :: pdus) = [.room sn] := by
  have hstored := hsegments.stored pdu List.mem_cons_self
  have hpos := hstored.payloadSize_pos
  have hend := hstored.end_le
  rw [hsegments.sn_eq pdu List.mem_cons_self] at hend
  obtain ⟨lead, segments, w, heq, hnacks⟩ := pduRequests_nacks hsn hlen hsegments
  have hno (nack : Nack) (hin : nack.InPdu (len sn)) : ¬Unreceived (pdu :: pdus) nack := by
    intro hunreceived
    obtain ⟨hlt, hcovers⟩ := covers_of_inPdu (by omega) hin
    obtain ⟨p, hp, hholds⟩ := hcomplete _ hlt
    exact hunreceived p hp _ hcovers hholds
  have hlead : lead = [] := by
    refine List.eq_nil_iff_forall_not_mem.mpr fun nack hnack ↦ ?_
    obtain ⟨hpart, hunreceived⟩ := hnacks.leading nack hnack
    exact hno nack hpart.inPdu hunreceived
  have hsegs : segments = [] := by
    cases segments with
    | nil => rfl
    | cons nack segments =>
      exact absurd (hnacks.behind.first nack rfl) (hno nack (hnacks.behind.parts nack List.mem_cons_self).inPdu)
  rw [hlead, hsegs, List.append_nil, List.filterMap_eq_nil_iff] at heq
  rw [pduRequests, hall, if_neg Bool.false_ne_true] at heq ⊢
  refine congrArg _ (List.eq_nil_iff_forall_not_mem.mpr fun q hq ↦ ?_)
  obtain ⟨soStart, soEnd, rfl⟩ := part_of_mem hq
  cases heq _ (List.mem_cons_of_mem _ hq)

/-- What is stored but gives no entry is complete without being marked so. -/
theorem Consistent.requestsAt_eq_room (he : e.Consistent len) :
    e.requestsAt d = [.room (snAt e.vrR d)] ↔ e.Unmarked len (snAt e.vrR d) := by
  have hsegments := he.segments (snAt e.vrR d)
  have hhas (b : ℕ) : e.Has (snAt e.vrR d) b ↔
      ∃ p ∈ e.receiverBuffer.filter (fun p ↦ p.pduInfo.sn = snAt e.vrR d), p.Holds b := by
    simp [Has, List.mem_filter, and_assoc]
  have hmarked (p : AmRxPdu) (hp : p ∈ e.receiverBuffer.filter fun p ↦ p.pduInfo.sn = snAt e.vrR d)
      (hall : p.allSegmentsReceived) (b : ℕ) (hb : b < len (snAt e.vrR d)) : e.Has (snAt e.vrR d) b := by
    obtain ⟨hp, hsn⟩ := List.mem_filter.mp hp
    have hsn := of_decide_eq_true hsn
    exact hsn ▸ he.complete p hp hall b (hsn.symm ▸ hb)
  simp only [Unmarked, hhas] at hmarked ⊢
  rw [requestsAt, ← List.head?_filter]
  generalize e.receiverBuffer.filter (fun p ↦ p.pduInfo.sn = snAt e.vrR d) = pdus at *
  constructor
  · intro hroom
    refine ⟨?_, fun b hb ↦ ?_⟩
    · cases pdus with
      | nil => simp [pduRequests, Request.pdu, Request.room] at hroom
      | cons pdu pdus =>
        refine ⟨pdu, rfl, Bool.eq_false_iff.mpr fun hall ↦ ?_⟩
        simp [pduRequests, hall] at hroom
    · by_contra hno
      push Not at hno
      obtain ⟨q, hq, n, hn, -⟩ := pduRequests_covers (snAt_lt _ _) (he.len_le _) hsegments
        (fun p hp hall ↦ hmarked p hp hall b hb) hb hno
      rw [hroom, List.mem_singleton] at hq
      rw [hq] at hn
      cases hn
  · rintro ⟨⟨p, hp, hall⟩, hcomplete⟩
    cases pdus with
    | nil => cases hp
    | cons pdu pdus =>
      obtain rfl := Option.some.inj hp
      exact pduRequests_of_complete (snAt_lt _ _) (he.len_le _) hsegments hall hcomplete

/-- The report is complete if everything that is missing fits and the receive list goes up to VR(MS). -/
theorem Consistent.fittingAckSn_eq_vrMs (he : e.Consistent len) :
    e.fittingAckSn = e.vrMs ↔ unmet Request.bits Request.used e.nackRoom e.missingRequests = none ∧
      e.reach 0 e.receiverBuffer = e.offset e.vrMs := by
  have hreach := e.reach_lt
  have hle := reach_le (Nat.zero_le (e.offset e.vrMs)) e.receiverBuffer
  have hMs := e.offset_lt e.vrMs
  have hMsSn : snAt e.vrR (e.offset e.vrMs) = e.vrMs := snAt_amDiffSn he.vrR_lt he.vrMs_lt
  have hne {k : ℕ} (hk : k < e.offset e.vrMs) : snAt e.vrR k ≠ e.vrMs := by
    rw [← hMsSn]
    exact snAt_ne he.vrR_lt (by omega) hMs hk.ne
  rw [fittingAckSn]
  cases hunmet : unmet Request.bits Request.used e.nackRoom e.missingRequests with
  | none =>
    rw [Option.map_none, Option.getD_none]
    constructor
    · intro heq
      refine ⟨rfl, hle.antisymm (Nat.not_lt.mp fun hlt ↦ hne hlt heq)⟩
    · rintro ⟨-, heq⟩
      rw [heq, hMsSn]
  | some q =>
    obtain ⟨rest, hrest⟩ := eq_append_of_unmet hunmet
    have hq : q ∈ e.missingRequests := by
      rw [hrest]
      exact List.mem_append_right _ List.mem_cons_self
    obtain ⟨k, hk, hqk⟩ := exists_of_mem_missingRequests hq
    rw [Option.map_some, Option.getD_some, sn_of_mem_pduRequests hqk]
    exact iff_of_false (hne (by omega)) fun h ↦ by cases h.1

/-- The bits that are counted for a report are those of the PDU. -/
theorem fittingBits_eq (e : AmReceiver) :
    e.fittingBits = 15 + ((Nack.clearLastE1 e.fittingNacks).map Nack.width).sum := by
  have hused (q : Request) (hq : q ∈ e.missingRequests) : (q.nack.map Nack.width).getD 0 = q.used := by
    obtain ⟨k, -, hqk⟩ := exists_of_mem_missingRequests hq
    obtain rfl | rfl | ⟨soStart, soEnd, rfl⟩ := pduRequests_of_mem hqk
    all_goals rfl
  have hwidth (qs : List Request) (hqs : ∀ q ∈ qs, q ∈ e.missingRequests) :
      ((qs.filterMap Request.nack).map Nack.width).sum = (qs.map Request.used).sum := by
    induction qs with
    | nil => rfl
    | cons q qs ih =>
      obtain ⟨hq, hrest⟩ := List.forall_mem_cons.mp hqs
      rw [List.map_cons, List.sum_cons, ← hused q hq, ← ih hrest]
      cases hnack : q.nack <;> simp [hnack]
  rw [fittingBits, Nack.map_width_clearLastE1, fittingNacks, entries,
    hwidth _ fun q hq ↦ (fitting_isPrefix _ _).subset hq]
  rfl

/-- A STATUS PDU is built, of the size that has been counted for it; if the grant is the size that is asked for, it
reports everything up to VR(MS). -/
def SizedStatus (len : ℕ → ℕ) (e : AmReceiver) : Prop :=
  ∃ e' info occupancy, e.sendStatusPdu = some (e', info) ∧ e.getStatusPduBufferOccupancy = some occupancy ∧
    (writeStatusPdu (fun _ ↦ 0) info).2 ≤ e.nbBytesRequestedByMac ∧
    e'.nbBytesRequestedByMac + (writeStatusPdu (fun _ ↦ 0) info).2 = e.nbBytesRequestedByMac ∧
    (e.nbBytesRequestedByMac = occupancy → info.ackSn = e.vrMs ∧
      ∀ d < e.offset e.vrMs, ∀ b < len (snAt e.vrR d), ¬e.Has (snAt e.vrR d) b →
        ∃ n ∈ info.nackList, n.nackSn = snAt e.vrR d ∧ n.Covers b)

/-- The report fits. -/
structure Reportable (len : ℕ → ℕ) (e : AmReceiver) : Prop where
  few : e.fittingNacks.length ≤ rlcAmMaxNackInStatusPdu
  reached : e.nbBytesRequestedByMac = (e.reportBits + 7) / 8 → e.reach 0 e.receiverBuffer = e.offset e.vrMs
  /-- Before a PDU that is complete without being marked so, there is room for a part of it. -/
  room : e.nbBytesRequestedByMac = (e.reportBits + 7) / 8 → ∀ d < e.reach 0 e.receiverBuffer,
    e.Unmarked len (snAt e.vrR d) →
      statusHeaderBits + entryBits (requests e.vrR e.receiverBuffer 0 d) + Nack.partBits ≤ 8 * e.nbBytesRequestedByMac

/-- With the grant that is asked for, everything that is missing fits if there is room at each unmarked PDU. -/
theorem Consistent.missingRequests_unmet (he : e.Consistent len)
    (hgrant : e.nbBytesRequestedByMac = (e.reportBits + 7) / 8) :
    unmet Request.bits Request.used e.nackRoom e.missingRequests = none ↔
      ∀ d < e.reach 0 e.receiverBuffer, e.Unmarked len (snAt e.vrR d) →
        statusHeaderBits + entryBits (requests e.vrR e.receiverBuffer 0 d) + Nack.partBits ≤
          8 * e.nbBytesRequestedByMac := by
  have hheader : statusHeaderBits = 15 := rfl
  have hroom : e.nackRoom = e.nbBytesRequestedByMac * 8 - 15 := by
    rw [nackRoom, Nat.shiftLeft_eq, hheader]
  have hfull : entryBits e.missingRequests ≤ e.nackRoom := by
    rw [reportBits, hheader] at hgrant
    omega
  have hpos : 0 < Nack.partBits := by decide
  rw [missingRequests] at hfull ⊢
  rw [requests_unmet]
  simp only [he.requestsAt_eq_room]
  constructor
  · rintro ⟨-, hfits⟩ d hd hunmarked
    have hle := hfits d hd hunmarked
    omega
  · intro hfits
    refine ⟨hfull, fun d hd hunmarked ↦ ?_⟩
    have hle := hfits d hd hunmarked
    omega

theorem Consistent.withGrant (he : e.Consistent len) (n : ℕ) :
    { e with nbBytesRequestedByMac := n }.Consistent len :=
  ⟨he.vrR_lt, he.vrMs_lt, he.len_le, ⟨he.listed.stored, he.listed.sorted⟩, he.complete, he.missing⟩

/-- PDU 0 is missing, and PDU 1 has come as one segment. -/
def loneSegment : AmReceiver := ⟨[segmentOf 1 0 20 true], 0, 2, 4⟩

theorem loneSegment_consistent : loneSegment.Consistent fun _ ↦ 20 where
  vrR_lt := by decide
  vrMs_lt := by decide
  len_le _ := by decide
  listed := by
    refine ⟨List.forall_mem_singleton.mpr ?_, List.pairwise_singleton _ _⟩
    exact ⟨by decide, by decide, by decide, by decide, by decide⟩
  complete := List.forall_mem_singleton.mpr fun h ↦ by cases h
  missing _ := by
    refine ⟨0, by decide, ?_⟩
    rintro ⟨p, hp, hsn, -⟩
    rw [List.mem_singleton.mp hp] at hsn
    cases hsn

end AmReceiver

end EdgeSlice.Rlc
