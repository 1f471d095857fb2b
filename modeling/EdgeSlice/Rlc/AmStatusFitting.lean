import EdgeSlice.Rlc.AmStatusCoverage

namespace EdgeSlice.Rlc

theorem Nack.map_clearLastE1 {nacks : List Nack} (h : ∀ n ∈ nacks, n.e1 = true) :
    (clearLastE1 nacks).map (fun n ↦ { n with e1 := true }) = nacks := by
  have hsame (n : Nack) (hn : n.e1 = true) : { n with e1 := true } = n := by
    cases n
    cases hn
    rfl
  induction nacks with
  | nil => rfl
  | cons n nacks ih =>
    obtain ⟨hn, hnacks⟩ := List.forall_mem_cons.mp h
    cases nacks with
    | nil => rw [clearLastE1, List.map_singleton, hsame n hn]
    | cons m nacks => rw [clearLastE1, List.map_cons, hsame n hn, ih hnacks]

namespace AmReceiver

open Budget StatusReport

variable {e : AmReceiver} {len : ℕ → ℕ} {sn b d : ℕ} {pdu : AmRxPdu} {pdus : List AmRxPdu} {q : Request}

/-- Everything before VR(MS) that is missing, up to the end of the receive list. -/
def missingRequests (e : AmReceiver) : List Request :=
  requests e.vrR e.receiverBuffer 0 (e.reach 0 e.receiverBuffer)

/-- The bits for NACKs. -/
def nackRoom (e : AmReceiver) : ℕ := e.nbBytesRequestedByMac <<< 3 - statusHeaderBits

/-- The NACKs that the grant has room for. -/
def fittingNacks (e : AmReceiver) : List Nack := entries e.nackRoom e.missingRequests

/-- The bits of the report with the NACKs that fit. -/
def fittingBits (e : AmReceiver) : ℕ :=
  statusHeaderBits + ((fitting Request.bits Request.used e.nackRoom e.missingRequests).map Request.used).sum

/-- The SN of what the grant has no room for any more, or the end of the report. -/
def fittingAckSn (e : AmReceiver) : ℕ :=
  ((unmet Request.bits Request.used e.nackRoom e.missingRequests).map Request.sn).getD
    (snAt e.vrR (e.reach 0 e.receiverBuffer))

theorem segmentRequests_of_mem {lsf : Bool} {waitedSo : ℤ} (hq : q ∈ segmentRequests sn pdus lsf waitedSo) :
    ∃ soStart soEnd, q = .part sn soStart soEnd := by
  induction pdus generalizing lsf waitedSo with
  | nil =>
    cases lsf with
    | true => cases hq
    | false => exact ⟨_, _, List.mem_singleton.mp hq⟩
  | cons p pdus ih =>
    cases lsf with
    | true => cases hq
    | false =>
      rw [segmentRequests] at hq
      split_ifs at hq
      · rcases List.mem_cons.mp hq with rfl | hq
        · exact ⟨_, _, rfl⟩
        · exact ih hq
      · exact ih hq

/-- The three kinds of requests. -/
theorem pduRequests_of_mem (hq : q ∈ pduRequests sn pdus) :
    q = .pdu sn ∨ q = .room sn ∨ ∃ soStart soEnd, q = .part sn soStart soEnd := by
  cases pdus with
  | nil => exact .inl (List.mem_singleton.mp hq)
  | cons pdu pdus =>
    rw [pduRequests, leadingRequests] at hq
    split_ifs at hq
    · cases hq
    · rcases List.mem_cons.mp hq with rfl | hq
      · exact .inr (.inl rfl)
      · rcases List.mem_cons.mp hq with rfl | hq
        · exact .inr (.inr ⟨_, _, rfl⟩)
        · exact .inr (.inr (segmentRequests_of_mem hq))
    · rcases List.mem_cons.mp hq with rfl | hq
      · exact .inr (.inl rfl)
      · exact .inr (.inr (segmentRequests_of_mem hq))

theorem sn_of_mem_pduRequests (hq : q ∈ pduRequests sn pdus) : q.sn = sn := by
  obtain rfl | rfl | ⟨soStart, soEnd, rfl⟩ := pduRequests_of_mem hq
  all_goals rfl

theorem bits_pos_of_mem_pduRequests (hq : q ∈ pduRequests sn pdus) : Nack.pduBits ≤ q.bits := by
  have hle : Nack.pduBits ≤ Nack.partBits := by decide
  obtain rfl | rfl | ⟨soStart, soEnd, rfl⟩ := pduRequests_of_mem hq
  · exact le_rfl
  · exact hle
  · exact hle

theorem bits_le_of_mem_pduRequests (hq : q ∈ pduRequests sn pdus) : q.bits ≤ Nack.partBits := by
  have hle : Nack.pduBits ≤ Nack.partBits := by decide
  obtain rfl | rfl | ⟨soStart, soEnd, rfl⟩ := pduRequests_of_mem hq
  · exact hle
  · exact le_rfl
  · exact le_rfl

theorem e1_of_mem_pduRequests (hq : q ∈ pduRequests sn pdus) : ∀ n ∈ q.nack, n.e1 = true := by
  obtain rfl | rfl | ⟨soStart, soEnd, rfl⟩ := pduRequests_of_mem hq
  · exact fun n hn ↦ Option.some.inj hn ▸ rfl
  · exact fun n hn ↦ by cases hn
  · exact fun n hn ↦ Option.some.inj hn ▸ rfl

theorem exists_of_mem_missingRequests (hq : q ∈ e.missingRequests) :
    ∃ k, k < e.reach 0 e.receiverBuffer ∧
      q ∈ pduRequests (snAt e.vrR k) (e.receiverBuffer.filter fun p ↦ p.pduInfo.sn = snAt e.vrR k) := by
  obtain ⟨k, hk, hq⟩ := List.mem_flatMap.mp hq
  obtain ⟨-, hlt⟩ := List.mem_range'_1.mp hk
  exact ⟨k, by omega, hq⟩

theorem reach_lt (e : AmReceiver) : e.reach 0 e.receiverBuffer < 1024 :=
  (reach_le (Nat.zero_le _) _).trans_lt (e.offset_lt _)

/-- What is missing is in the order of the sequence numbers. -/
theorem missingRequests_sorted (hvrR : e.vrR < 1024) :
    e.missingRequests.Pairwise fun p q ↦ e.offset p.sn ≤ e.offset q.sn := by
  have hreach := e.reach_lt
  refine List.pairwise_flatMap.mpr ⟨fun k _ ↦ ?_, ?_⟩
  · refine List.pairwise_of_forall_mem_list fun p hp q hq ↦ ?_
    rw [sn_of_mem_pduRequests hp, sn_of_mem_pduRequests hq]
  · refine List.Pairwise.imp_of_mem (fun {k m} hk hm hlt p hp q hq ↦ ?_) List.pairwise_lt_range'
    obtain ⟨-, hk⟩ := List.mem_range'_1.mp hk
    obtain ⟨-, hm⟩ := List.mem_range'_1.mp hm
    rw [sn_of_mem_pduRequests hp, sn_of_mem_pduRequests hq, offset, amDiffSn_snAt hvrR (by omega), offset,
      amDiffSn_snAt hvrR (by omega)]
    exact hlt.le

/-- The segments of a PDU in the receive list. -/
theorem Consistent.segments (he : e.Consistent len) (sn : ℕ) :
    e.Segments len sn (e.receiverBuffer.filter fun p ↦ p.pduInfo.sn = sn) where
  toListed := he.listed.sublist List.filter_sublist
  sn_eq p hp := by
    obtain ⟨-, heq⟩ := List.mem_filter.mp hp
    exact of_decide_eq_true heq

/-- A missing byte of a PDU before the end of the receive list is requested. -/
theorem Consistent.exists_covers (he : e.Consistent len) (hd : d < e.reach 0 e.receiverBuffer)
    (hb : b < len (snAt e.vrR d)) (hno : ¬e.Has (snAt e.vrR d) b) :
    ∃ q ∈ e.missingRequests, q.sn = snAt e.vrR d ∧ q.Covers b := by
  have hmem (p : AmRxPdu) (hp : p ∈ e.receiverBuffer.filter fun p ↦ p.pduInfo.sn = snAt e.vrR d) :
      p ∈ e.receiverBuffer ∧ p.pduInfo.sn = snAt e.vrR d := by
    obtain ⟨hp, heq⟩ := List.mem_filter.mp hp
    exact ⟨hp, of_decide_eq_true heq⟩
  obtain ⟨q, hq, hcovers⟩ := pduRequests_covers (b := b) (snAt_lt _ _) (he.len_le _) (he.segments (snAt e.vrR d))
    (fun p hp hall ↦ by
      obtain ⟨hp, heq⟩ := hmem p hp
      exact absurd (heq ▸ he.complete p hp hall b (heq.symm ▸ hb)) hno)
    hb (fun p hp hholds ↦ hno ⟨p, (hmem p hp).1, (hmem p hp).2, hholds⟩)
  refine ⟨q, List.mem_flatMap.mpr ⟨d, List.mem_range'_1.mpr ⟨Nat.zero_le _, by omega⟩, hq⟩, ?_, hcovers⟩
  exact sn_of_mem_pduRequests hq

theorem entries_of_first {q : Request} {qs : List Request} {room : ℕ} {n : Nack} (hroom : q.bits ≤ room)
    (hn : q.nack = some n) : entries room (q :: qs) ≠ [] := by
  rw [entries, fitting_cons_of_le hroom, List.filterMap_cons_some hn]
  exact List.cons_ne_nil _ _

theorem offset_vrMs_pos (hvrR : e.vrR < 1024) (hvrMs : e.vrMs < 1024) (hne : e.vrR ≠ e.vrMs) :
    0 < e.offset e.vrMs := by
  refine Nat.pos_of_ne_zero fun hzero ↦ hne ?_
  rw [← snAt_amDiffSn hvrR hvrMs, show amDiffSn e.vrMs e.vrR = 0 from hzero, snAt_zero hvrR]

theorem part_of_mem {lsf : Bool} {so : ℕ} {waitedSo : ℤ}
    (hq : q ∈ leadingRequests sn so ++ segmentRequests sn pdus lsf waitedSo) :
    ∃ soStart soEnd, q = .part sn soStart soEnd := by
  rcases List.mem_append.mp hq with hq | hq
  · rw [leadingRequests] at hq
    split_ifs at hq
    · exact ⟨_, _, List.mem_singleton.mp hq⟩
    · cases hq
  · exact segmentRequests_of_mem hq

/-- The requests for a PDU that has been received in part. -/
theorem pduRequests_of_part (hsn : sn < 1024) (hlen : len sn ≤ rlcAmStatusPduSoEndAllBytes)
    (hsegments : e.Segments len sn (pdu :: pdus)) (hpart : pdu.allSegmentsReceived = false)
    (hall : ∀ p ∈ pdus, p.allSegmentsReceived → ∃ p ∈ pdu :: pdus, p.Holds b)
    (hb : b < len sn) (hno : ∀ p ∈ pdu :: pdus, ¬p.Holds b) :
    ∃ soStart soEnd qs, pduRequests sn (pdu :: pdus) = .room sn :: .part sn soStart soEnd :: qs := by
  have hall' (p : AmRxPdu) (hp : p ∈ pdu :: pdus) (hyes : p.allSegmentsReceived) :
      ∃ p ∈ pdu :: pdus, p.Holds b := by
    rcases List.mem_cons.mp hp with rfl | hp
    · rw [hpart] at hyes
      cases hyes
    · exact hall p hp hyes
  obtain ⟨q, hq, n, hn, -⟩ := pduRequests_covers hsn hlen hsegments hall' hb hno
  rw [pduRequests, hpart, if_neg Bool.false_ne_true] at hq ⊢
  rcases List.mem_cons.mp hq with rfl | hq
  · cases hn
  cases hparts : leadingRequests sn pdu.pduInfo.so ++
      segmentRequests sn pdus pdu.pduInfo.lsf (pdu.pduInfo.so + pdu.pduInfo.payloadSize) with
  | nil =>
    rw [hparts] at hq
    cases hq
  | cons p qs =>
    obtain ⟨soStart, soEnd, rfl⟩ := part_of_mem (hparts.symm ▸ List.mem_cons_self (a := p) (l := qs))
    exact ⟨soStart, soEnd, qs, rfl⟩

/-- The report begins with VR(R). -/
theorem Consistent.missingRequests_first (he : e.Consistent len) (hne : e.vrR ≠ e.vrMs)
    (hbuffer : e.receiverBuffer ≠ []) : ∃ qs,
    e.missingRequests = .pdu e.vrR :: qs ∨ ∃ pdu next soStart soEnd, e.receiverBuffer = pdu :: next ∧
      pdu.pduInfo.sn = e.vrR ∧ pdu.allSegmentsReceived = false ∧
        e.missingRequests = .room e.vrR :: .part e.vrR soStart soEnd :: qs := by
  have hMs := offset_vrMs_pos he.vrR_lt he.vrMs_lt hne
  obtain ⟨pdu, next, hlist⟩ := List.exists_cons_of_ne_nil hbuffer
  have hlisted : e.Listed len (pdu :: next) := hlist ▸ he.listed
  have hstored := hlisted.stored pdu List.mem_cons_self
  have hreach : 1 ≤ e.reach 0 e.receiverBuffer := by
    rw [hlist]
    rcases Nat.lt_or_ge (e.offset pdu.pduInfo.sn) (e.offset e.vrMs) with hlt | hle
    · have hle : e.offset pdu.pduInfo.sn + 1 ≤ e.reach (e.offset pdu.pduInfo.sn + 1) (otherSn pdu next) :=
        le_reach hlt fun p hp ↦ hlisted.offset_lt_of_mem_otherSn hp
      rw [reach_cons hlt]
      omega
    · rw [reach_of_le hlisted hle]
      exact hMs
  obtain ⟨k, hk⟩ : ∃ k, e.reach 0 e.receiverBuffer = 1 + k := ⟨e.reach 0 e.receiverBuffer - 1, by omega⟩
  rw [missingRequests, hk, requests_add]
  rcases Nat.eq_zero_or_pos (e.offset pdu.pduInfo.sn) with hzero | hpos
  · have hsn : pdu.pduInfo.sn = e.vrR := by
      rw [← snAt_amDiffSn he.vrR_lt hstored.sn_lt, show amDiffSn pdu.pduInfo.sn e.vrR = 0 from hzero,
        snAt_zero he.vrR_lt]
    have hfirst := requests_first he.vrR_lt hlisted
    rw [hzero, hsn, ← hlist] at hfirst
    obtain ⟨b, hb, hno⟩ := he.missing hne
    have hmem (p : AmRxPdu) (hp : p ∈ pdu :: sameSn pdu next) :
        p ∈ e.receiverBuffer ∧ p.pduInfo.sn = e.vrR := by
      rw [hlist]
      rcases List.mem_cons.mp hp with rfl | hp
      · exact ⟨List.mem_cons_self, hsn⟩
      · exact ⟨List.mem_cons_of_mem _ ((List.takeWhile_sublist _).subset hp), (sn_of_mem_sameSn hp).trans hsn⟩
    have hpart (p : AmRxPdu) (hp : p ∈ pdu :: sameSn pdu next) : ¬p.allSegmentsReceived := by
      intro hall
      obtain ⟨hp, heq⟩ := hmem p hp
      exact hno (heq ▸ he.complete p hp hall b (heq.symm ▸ hb))
    have hsegments : e.Segments len e.vrR (pdu :: sameSn pdu next) :=
      ⟨hlisted.sublist ((List.takeWhile_sublist _).cons_cons _), fun p hp ↦ (hmem p hp).2⟩
    have hall := Bool.eq_false_iff.mpr (hpart pdu List.mem_cons_self)
    obtain ⟨soStart, soEnd, qs, hqs⟩ := pduRequests_of_part he.vrR_lt (he.len_le _) hsegments hall
      (fun p hp hyes ↦ absurd hyes (hpart p (List.mem_cons_of_mem _ hp))) hb
      fun p hp hholds ↦ hno ⟨p, (hmem p hp).1, (hmem p hp).2, hholds⟩
    rw [hfirst, hqs]
    exact ⟨_, .inr ⟨pdu, next, soStart, soEnd, hlist, hsn, hall, rfl⟩⟩
  · have hlater (p : AmRxPdu) (hp : p ∈ e.receiverBuffer) : 0 + 1 ≤ e.offset p.pduInfo.sn := by
      rw [hlist] at hp
      rcases List.mem_cons.mp hp with rfl | hp
      · exact hpos
      · exact hpos.trans_le ((List.pairwise_cons.mp hlisted.sorted).1 p hp).offset_le
    have hbefore := requests_before he.vrR_lt (show 0 + 1 ≤ 1024 by decide) hlater
    rw [hbefore, List.range'_one, List.map_singleton, snAt_zero he.vrR_lt]
    exact ⟨_, .inl rfl⟩

theorem putStatus_of_le {ackSn bits : ℕ} (e1 : Bool) (nackList : List Nack)
    (hbits : bits ≤ e.nbBytesRequestedByMac * 8) : ∃ e' info,
    e.putStatus ackSn e1 nackList bits = some (e', info) ∧ info.ackSn = ackSn % 1024 ∧
      info.nackList = nackList ∧ e'.nbBytesRequestedByMac + (bits + 7) / 8 = e.nbBytesRequestedByMac := by
  have hdiv : (bits + 7) >>> 3 = (bits + 7) / 8 := Nat.shiftRight_eq_div_pow _ 3
  have hsize : (bits + 7) / 8 ≤ e.nbBytesRequestedByMac := by omega
  simp only [putStatus, hdiv]
  rw [if_pos hsize]
  exact ⟨_, _, rfl, rfl, rfl, Nat.sub_add_cancel hsize⟩

theorem missingRequests_of_reach (h : e.reach 0 e.receiverBuffer = 0) :
    e.fittingNacks = [] ∧ e.fittingAckSn = snAt e.vrR 0 ∧ e.fittingBits = statusHeaderBits := by
  have hnil : e.missingRequests = [] := by
    rw [missingRequests, h]
    rfl
  rw [fittingNacks, fittingAckSn, fittingBits, hnil, h]
  exact ⟨rfl, rfl, rfl⟩

theorem fittingAckSn_lt (e : AmReceiver) : e.fittingAckSn < 1024 := by
  rw [fittingAckSn]
  cases hunmet : unmet Request.bits Request.used e.nackRoom e.missingRequests with
  | none => exact snAt_lt _ _
  | some q =>
    obtain ⟨rest, hrest⟩ := eq_append_of_unmet hunmet
    have hq : q ∈ e.missingRequests := by
      rw [hrest]
      exact List.mem_append_right _ List.mem_cons_self
    obtain ⟨k, -, hq⟩ := exists_of_mem_missingRequests hq
    rw [Option.map_some, Option.getD_some, sn_of_mem_pduRequests hq]
    exact snAt_lt _ _

/-- The report when the main loop begins. -/
def emptyReport : StatusReport := ⟨[], statusHeaderBits, none⟩

/-- The main loop, from VR(R) on. -/
theorem Consistent.nackLoop_reports (he : e.Consistent len) (hgrant : 2 ≤ e.nbBytesRequestedByMac) :
    Reports (snAt e.vrR (e.reach 0 e.receiverBuffer))
      (e.nackLoop (e.nbBytesRequestedByMac <<< 3) (e.receiverBuffer.length + 1) e.receiverBuffer e.vrR false
        emptyReport)
      (if e.fittingNacks.length ≤ rlcAmMaxNackInStatusPdu then
        some (filled (e.nbBytesRequestedByMac <<< 3) e.missingRequests emptyReport) else none) := by
  have hbits : emptyReport.nbBitsTransmitted ≤ e.nbBytesRequestedByMac <<< 3 := by
    rw [Nat.shiftLeft_eq, show emptyReport.nbBitsTransmitted = 15 from rfl]
    omega
  have hreports : Reports _ (e.nackLoop _ (e.receiverBuffer.length + 1) _ (snAt e.vrR 0) false emptyReport) _ :=
    AmReceiver.nackLoop_reports he.vrR_lt he.vrMs_lt he.listed (fun p _ ↦ Nat.zero_le _) (Nat.zero_le _) rfl hbits
      (Nat.lt_succ_self _)
  have hpos (q : Request) (hq : q ∈ e.missingRequests) : 0 < q.bits := by
    obtain ⟨k, -, hq⟩ := exists_of_mem_missingRequests hq
    exact (show 0 < Nack.pduBits by decide).trans_le (bits_pos_of_mem_pduRequests hq)
  have hfill : fill (e.nbBytesRequestedByMac <<< 3) e.missingRequests emptyReport = _ :=
    fill_eq hpos rfl (Nat.zero_le _)
  rw [snAt_zero he.vrR_lt, Nat.sub_zero] at hreports
  have hnacks : (filled (e.nbBytesRequestedByMac <<< 3) e.missingRequests emptyReport).nackList = e.fittingNacks :=
    List.nil_append _
  rw [hnacks] at hfill
  rwa [← hfill]

/-- The assertion about the entries holds. -/
theorem Consistent.nackLoop_nack (he : e.Consistent len) (hne : e.vrR ≠ e.vrMs) (hbuffer : e.receiverBuffer ≠ [])
    (hroom : statusHeaderBits + Nack.pduBits ≤ e.nbBytesRequestedByMac <<< 3) {snNack : ℕ} {all : Bool}
    (hloop : e.nackLoop (e.nbBytesRequestedByMac <<< 3) (e.receiverBuffer.length + 1) e.receiverBuffer e.vrR false
      emptyReport = some (filled (e.nbBytesRequestedByMac <<< 3) e.missingRequests emptyReport, snNack, all)) :
    e.fittingNacks ≠ [] ∨ ¬all := by
  obtain ⟨qs, hfirst | ⟨pdu, next, soStart, soEnd, hlist, hsn, hall, hfirst⟩⟩ :=
    he.missingRequests_first hne hbuffer
  · left
    rw [fittingNacks, hfirst]
    exact entries_of_first (show Nack.pduBits ≤ e.nackRoom by rw [nackRoom]; omega) rfl
  by_cases hfit : Nack.partBits ≤ e.nackRoom
  · left
    have hroom : entries e.nackRoom e.missingRequests =
        entries e.nackRoom (.part e.vrR soStart soEnd :: qs) := by
      rw [hfirst, entries, fitting_cons_of_le (show (Request.room e.vrR).bits ≤ e.nackRoom from hfit)]
      rfl
    rw [fittingNacks, hroom]
    exact entries_of_first (q := .part e.vrR soStart soEnd) hfit rfl
  · -- VR(R) has been received in part, and there is no room for any part of it
    right
    have hbits : ¬emptyReport.nbBitsTransmitted + Nack.partBits ≤ e.nbBytesRequestedByMac <<< 3 := by
      rw [nackRoom] at hfit
      rw [show emptyReport.nbBitsTransmitted = statusHeaderBits from rfl]
      omega
    have hgap : e.nackPdus (e.nbBytesRequestedByMac <<< 3) pdu.pduInfo.sn 1025 e.vrR emptyReport =
        some (emptyReport, e.vrR) := by
      rw [nackPdus, if_neg fun h ↦ h.1 hsn.symm]
    have hmore : emptyReport.completed.isNone ∧ amDiffSn e.vrR e.vrR < amDiffSn e.vrMs e.vrR ∧
        emptyReport.nbBitsTransmitted ≤ e.nbBytesRequestedByMac <<< 3 := by
      refine ⟨rfl, ?_, (Nat.le_add_right _ _).trans hroom⟩
      have hself : amDiffSn e.vrR e.vrR = 0 := by
        rw [amDiffSn_eq]
        omega
      rw [hself]
      exact offset_vrMs_pos he.vrR_lt he.vrMs_lt hne
    have hpart : emptyReport.completed.isNone ∧ ¬pdu.allSegmentsReceived ∧ pdu.pduInfo.sn ≠ e.vrMs := by
      rw [hall, hsn]
      exact ⟨rfl, Bool.false_ne_true, hne⟩
    have hstop : nackParts (e.nbBytesRequestedByMac <<< 3) e.vrR pdu next emptyReport =
        some ({ emptyReport with completed := some e.vrR }, pdu :: next) := by
      rw [nackParts, if_neg hbits]
    have hcompleted : ({ emptyReport with completed := some e.vrR } : StatusReport).completed ≠ none :=
      Option.some_ne_none _
    rw [hlist, List.length_cons, nackLoop, if_pos hmore] at hloop
    simp only [Option.bind_eq_bind, hgap, Option.bind_some] at hloop
    rw [if_neg hne, if_pos hpart, if_pos hsn.symm, hstop, Option.bind_some, nackLoop_completed hcompleted] at hloop
    have heq := (Prod.mk.inj (Prod.mk.inj (Option.some.inj hloop)).2).2
    rw [← heq, hall]
    exact Bool.false_ne_true

theorem reach_of_nothing (he : e.Consistent len) (h : e.vrR = e.vrMs ∨ e.receiverBuffer = []) :
    e.reach 0 e.receiverBuffer = 0 := by
  rcases h with h | h
  · have hzero : e.offset e.vrMs = 0 := by
      rw [← h, offset, amDiffSn_eq]
      have hlt := he.vrR_lt
      omega
    have hle := reach_le (Nat.zero_le (e.offset e.vrMs)) e.receiverBuffer
    omega
  · rw [h]
    rfl

/-- There is no room for a NACK. -/
theorem Consistent.fitting_of_small (he : e.Consistent len) (hne : e.vrR ≠ e.vrMs) (hbuffer : e.receiverBuffer ≠ [])
    (hroom : ¬statusHeaderBits + Nack.pduBits ≤ e.nbBytesRequestedByMac <<< 3) :
    e.fittingNacks = [] ∧ e.fittingAckSn = snAt e.vrR 0 ∧ e.fittingBits = statusHeaderBits := by
  have hstop (q : Request) (qs : List Request) (hq : q.sn = e.vrR) (hbits : Nack.pduBits ≤ q.bits)
      (heq : e.missingRequests = q :: qs) :
      e.fittingNacks = [] ∧ e.fittingAckSn = snAt e.vrR 0 ∧ e.fittingBits = statusHeaderBits := by
    have hlt : e.nackRoom < q.bits := by
      have hpos : 0 < Nack.pduBits := by decide
      rw [nackRoom]
      omega
    rw [fittingNacks, fittingAckSn, fittingBits, heq, entries_cons_of_lt hlt, unmet_cons_of_lt hlt,
      fitting_cons_of_lt hlt, Option.map_some, Option.getD_some, hq, snAt_zero he.vrR_lt]
    exact ⟨rfl, rfl, rfl⟩
  obtain ⟨qs, hfirst | ⟨pdu, next, soStart, soEnd, -, -, -, hfirst⟩⟩ := he.missingRequests_first hne hbuffer
  · exact hstop _ _ rfl le_rfl hfirst
  · exact hstop _ _ rfl (show Nack.pduBits ≤ Nack.partBits by decide) hfirst

/-- `nack_list` has room for the NACKs. -/
theorem Consistent.sendStatusPdu_of_le (he : e.Consistent len) (hgrant : 2 ≤ e.nbBytesRequestedByMac)
    (hfew : e.fittingNacks.length ≤ rlcAmMaxNackInStatusPdu) :
    ∃ e' info, e.sendStatusPdu = some (e', info) ∧ info.ackSn = e.fittingAckSn ∧
      info.nackList = Nack.clearLastE1 e.fittingNacks ∧
        e'.nbBytesRequestedByMac + (e.fittingBits + 7) / 8 = e.nbBytesRequestedByMac := by
  have hheader : statusHeaderBits ≤ e.nbBytesRequestedByMac * 8 := by
    rw [show statusHeaderBits = 15 from rfl]
    omega
  have hput (h : e.fittingNacks = [] ∧ e.fittingAckSn = snAt e.vrR 0 ∧ e.fittingBits = statusHeaderBits) :
      ∃ e' info, e.putStatus e.vrR false [] statusHeaderBits = some (e', info) ∧ info.ackSn = e.fittingAckSn ∧
        info.nackList = Nack.clearLastE1 e.fittingNacks ∧
          e'.nbBytesRequestedByMac + (e.fittingBits + 7) / 8 = e.nbBytesRequestedByMac := by
    obtain ⟨e', info, hsome, hack, hnacks, hsize⟩ := putStatus_of_le false [] hheader
    rw [h.1, h.2.1, h.2.2, snAt_zero he.vrR_lt]
    exact ⟨e', info, hsome, hack.trans (Nat.mod_eq_of_lt he.vrR_lt), hnacks, hsize⟩
  simp only [sendStatusPdu]
  by_cases hall : e.vrR = e.vrMs
  · rw [if_pos hall, ← hall]
    exact hput (missingRequests_of_reach (reach_of_nothing he (.inl hall)))
  rw [if_neg hall]
  by_cases hbuffer : e.receiverBuffer = []
  · rw [if_neg fun h ↦ h.1 (List.isEmpty_iff.mpr hbuffer)]
    exact hput (missingRequests_of_reach (reach_of_nothing he (.inr hbuffer)))
  by_cases hroom : statusHeaderBits + Nack.pduBits ≤ e.nbBytesRequestedByMac <<< 3
  swap
  · rw [if_neg fun h ↦ hroom h.2]
    exact hput (he.fitting_of_small hall hbuffer hroom)
  rw [if_pos ⟨fun h ↦ hbuffer (List.isEmpty_iff.mp h), hroom⟩]
  obtain ⟨hfst, hsn⟩ := he.nackLoop_reports hgrant
  rw [if_pos hfew] at hfst
  obtain ⟨⟨r, snNack, all⟩, hloop, rfl⟩ := Option.map_eq_some_iff.mp hfst
  have hnacks : (filled (e.nbBytesRequestedByMac <<< 3) e.missingRequests emptyReport).nackList = e.fittingNacks :=
    List.nil_append _
  have hbits : (filled (e.nbBytesRequestedByMac <<< 3) e.missingRequests emptyReport).nbBitsTransmitted ≤
      e.nbBytesRequestedByMac * 8 := by
    have hsum : ((fitting Request.bits Request.used e.nackRoom e.missingRequests).map Request.used).sum ≤
        e.nackRoom := sum_use_le fun q _ ↦ q.used_le
    rw [nackRoom, Nat.shiftLeft_eq] at hsum
    rw [filled, Nat.shiftLeft_eq]
    simp only [show emptyReport.nbBitsTransmitted = statusHeaderBits from rfl]
    omega
  have hack : (filled (e.nbBytesRequestedByMac <<< 3) e.missingRequests emptyReport).completed.getD snNack =
      e.fittingAckSn := by
    have hcompleted : (filled (e.nbBytesRequestedByMac <<< 3) e.missingRequests emptyReport).completed =
        (unmet Request.bits Request.used e.nackRoom e.missingRequests).map Request.sn := rfl
    have hend := hsn _ hloop
    rw [hcompleted] at hend ⊢
    rw [fittingAckSn]
    cases hunmet : unmet Request.bits Request.used e.nackRoom e.missingRequests with
    | none =>
      rw [hunmet] at hend
      exact hend rfl
    | some q => rfl
  have hassert := he.nackLoop_nack hall hbuffer hroom hloop
  obtain ⟨e', info, hsome, hackSn, hlist, hsize⟩ := putStatus_of_le true (Nack.clearLastE1 e.fittingNacks) hbits
  refine ⟨e', info, ?_, ?_, hlist, hsize⟩
  · rw [show (⟨[], statusHeaderBits, none⟩ : StatusReport) = emptyReport from rfl, hloop, Option.bind_eq_bind,
      Option.bind_some]
    simp only [hnacks]
    rw [if_pos hassert]
    exact hsome
  · rw [hackSn, hack]
    exact Nat.mod_eq_of_lt e.fittingAckSn_lt

/-- `nack_list` overflows. -/
theorem Consistent.sendStatusPdu_of_lt (he : e.Consistent len) (hgrant : 2 ≤ e.nbBytesRequestedByMac)
    (hmany : rlcAmMaxNackInStatusPdu < e.fittingNacks.length) : e.sendStatusPdu = none := by
  have hnil : e.fittingNacks ≠ [] := fun h ↦ by
    rw [h] at hmany
    exact Nat.not_lt_zero _ hmany
  simp only [sendStatusPdu]
  have hall : e.vrR ≠ e.vrMs := fun h ↦ hnil (missingRequests_of_reach (reach_of_nothing he (.inl h))).1
  have hbuffer : e.receiverBuffer ≠ [] := fun h ↦
    hnil (missingRequests_of_reach (reach_of_nothing he (.inr h))).1
  have hroom : statusHeaderBits + Nack.pduBits ≤ e.nbBytesRequestedByMac <<< 3 := by
    by_contra hroom
    exact hnil (he.fitting_of_small hall hbuffer hroom).1
  rw [if_neg hall, if_pos ⟨fun h ↦ hbuffer (List.isEmpty_iff.mp h), hroom⟩]
  obtain ⟨hfst, -⟩ := he.nackLoop_reports hgrant
  rw [if_neg (Nat.not_le.mpr hmany), Option.map_eq_none_iff] at hfst
  rw [show (⟨[], statusHeaderBits, none⟩ : StatusReport) = emptyReport from rfl, hfst]
  rfl

theorem e1_of_mem_fittingNacks {n : Nack} (hn : n ∈ e.fittingNacks) : n.e1 = true := by
  obtain ⟨q, hq, hnack⟩ := List.mem_filterMap.mp hn
  obtain ⟨k, -, hq⟩ := exists_of_mem_missingRequests ((fitting_isPrefix _ _).subset hq)
  exact e1_of_mem_pduRequests hq n hnack

/-- The entries that are sent are the NACKs that fit, but for E1. -/
theorem map_sent (e : AmReceiver) :
    (Nack.clearLastE1 e.fittingNacks).map (fun n ↦ { n with e1 := true }) = e.fittingNacks :=
  Nack.map_clearLastE1 fun _ ↦ e1_of_mem_fittingNacks

end AmReceiver

end EdgeSlice.Rlc
