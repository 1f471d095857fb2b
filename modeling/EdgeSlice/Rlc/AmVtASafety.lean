import EdgeSlice.Rlc.AmReportScan

namespace EdgeSlice.Rlc

theorem AmTxPdu.sdusIndex_of_accepted {p q : AmTxPdu} {again increment : Bool} {soStart soEnd size : ℕ}
    (h : p.takeNack again soStart soEnd = .accepted q increment size) : q.sdusIndex = p.sdusIndex := by
  simp only [takeNack] at h
  generalize (if soEnd = rlcAmStatusPduSoEndAllBytes then p.payloadSize - 1 else soEnd) = stop at h
  repeat' split at h
  all_goals cases h
  all_goals rfl

theorem AmTxPdu.sdusIndex_schedule (p : AmTxPdu) (again increment : Bool) (size : ℕ) :
    (p.schedule again increment size).1.sdusIndex = p.sdusIndex := by
  simp only [schedule]
  split_ifs
  all_goals rfl

namespace AmTransmitter

open Function

variable {s t u : AmTransmitter} {A : Set ℕ} {L : List ℕ} {info : ControlPduInfo}
  {sn soStart soEnd ackSn cursor nackSn prevNackSn fuel : ℕ} {status : Bool} {nacks : List Nack}

theorem Frame.sdusValid (h : Frame A L s t) (hs : s.SdusValid) : t.SdusValid where
  sdusIndex_lt i := by
    rw [h.sdusIndex_eq]
    exact hs.sdusIndex_lt i
  memBlock_eq_none i := by
    rw [h.inputSdus_eq]
    exact hs.memBlock_eq_none i
  nextSduIndex_lt := h.nextSduIndex_eq ▸ hs.nextSduIndex_lt
  currentSduIndex_lt := h.currentSduIndex_eq ▸ hs.currentSduIndex_lt

theorem nackPdu_frame (h : s.nackPdu sn prevNackSn soStart soEnd = some (t, status)) :
    Frame {sn % rlcAmWindowSize} [] s t := by
  rw [nackPdu] at h
  split at h
  · cases h
  · cases h
    exact (Frame.refl s).mono (Set.empty_subset _)
  · next p increment size htake =>
    cases h
    refine Frame.setPdu ⟨rfl, rfl, rfl, rfl, rfl, fun _ ↦ rfl, (List.append_nil _).symm, fun _ _ ↦ rfl⟩ ?_
      (Set.mem_singleton _)
    exact (p.sdusIndex_schedule _ _ _).trans (AmTxPdu.sdusIndex_of_accepted htake)

/-- Whatever the report, the loop only acknowledges PDUs and writes their slots. -/
theorem nackLoop_frame (h : s.nackLoop ackSn fuel cursor nackSn prevNackSn nacks = some (t, status)) :
    ∃ A L, Frame A L s t := by
  induction fuel generalizing s cursor nackSn prevNackSn nacks with
  | zero => cases h
  | succ fuel ih =>
    rw [nackLoop] at h
    by_cases hend : cursor = ackSn
    · rw [if_neg (not_not_intro hend)] at h
      cases h
      exact ⟨_, _, Frame.refl _⟩
    rw [if_pos hend] at h
    by_cases hcursor : cursor = nackSn
    · rw [if_neg (not_not_intro hcursor), Option.bind_eq_bind, Option.bind_eq_some_iff] at h
      obtain ⟨⟨u, taken⟩, hnack, hrest⟩ := h
      have hfirst := nackPdu_frame hnack
      simp only at hrest
      split at hrest
      · cases hrest
        exact ⟨_, _, hfirst⟩
      · split at hrest
        · obtain ⟨A, L, hframe⟩ := ih hrest
          exact ⟨_, _, hfirst.trans hframe⟩
        · split at hrest
          · obtain ⟨A, L, hframe⟩ := ih hrest
            exact ⟨_, _, hfirst.trans hframe⟩
          · cases hrest
            exact ⟨_, _, hfirst⟩
    · rw [if_pos hcursor, Option.bind_eq_bind, Option.bind_eq_some_iff] at h
      obtain ⟨u, hack, hrest⟩ := h
      obtain ⟨A, L, hframe⟩ := ih hrest
      exact ⟨_, _, (ackPdu_frame_of_eq hack).trans hframe⟩

/-- What the transmitter keeps between two reports. -/
structure Valid (s : AmTransmitter) : Prop extends SdusValid s where
  vtA_lt : s.vtA < 1024
  /-- VT(S) is at most a window after VT(A). -/
  vtS_le : s.offset s.vtS ≤ rlcAmWindowSize
  payloadSize_pos : ∀ i, (s.txDataPduBuffer i).memBlock.isSome → 0 < (s.txDataPduBuffer i).payloadSize

/-- The report is processed to its end, VT(A) stays between its old value and VT(S), and only PDUs
that are acknowledged and not NACKed are released. -/
def Safe (info : ControlPduInfo) (s : AmTransmitter) : Prop :=
  ∃ t, s.receiveProcessControlPdu (some info) = some t ∧ t.vtA < 1024 ∧ s.offset t.vtA ≤ s.offset s.vtS ∧
    ∀ sn ∈ t.acked.drop s.acked.length,
      s.offset sn < min (s.offset info.ackSn) (s.offset s.vtS) ∧ ∀ n ∈ info.nackList, n.nackSn ≠ sn

/-- A report whose NACKs are in order, as far as the transmitter gets with it. -/
structure InOrder (info : ControlPduInfo) (s : AmTransmitter) : Prop where
  /-- The first NACK_SN is not behind ACK_SN. -/
  first : ∀ n ∈ info.nackList.head?, s.offset n.nackSn ≤ s.offset info.ackSn
  /-- The parts of PDUs that are looked at do not end before they start. -/
  forward : ∀ n ∈ (s.scan info.ackSn [] info.nackList).1,
    (s.pduOf n.nackSn).memBlock.isSome → n.soStart ≤ n.soEnd
  /-- No NACK that is before the end of the scan has been left out. -/
  listed : ∀ n ∈ info.nackList, s.offset n.nackSn < (s.scan info.ackSn [] info.nackList).2 →
    n.nackSn ∈ (s.scan info.ackSn [] info.nackList).1.map Nack.nackSn
  /-- No PDU before the end of the scan, that is not NACKed, is acknowledged and still to be sent
  again. -/
  released : ∀ d < (s.scan info.ackSn [] info.nackList).2,
    snAt s.vtA d ∉ (s.scan info.ackSn [] info.nackList).1.map Nack.nackSn → ¬(s.pduOf (snAt s.vtA d)).Stuck

/-- The reports that the transmitter is safe against. -/
def Harmless (info : ControlPduInfo) (s : AmTransmitter) : Prop :=
  info.nackList.length < rlcAmMaxNackInStatusPdu ∧
    (s.offset info.ackSn ≤ s.offset s.vtS → s.InOrder info)

theorem amPrevSn_lt (sn : ℕ) : amPrevSn sn < 1024 := by
  have hmask : amPrevSn sn = (sn + 1024 - 1) % 2 ^ 10 := Nat.and_two_pow_sub_one_eq_mod _ 10
  rw [hmask]
  exact Nat.mod_lt _ (by decide)

theorem lastConfirmed_lt (n : Nack) (s : AmTransmitter) : (s.lastConfirmed n.nackSn).1 < 1024 := by
  simp only [lastConfirmed]
  split_ifs
  · exact amPrevSn_lt _
  · exact n.sn_lt
  · exact amPrevSn_lt _

theorem offset_self (s : AmTransmitter) : s.offset s.vtA = 0 := by
  rw [offset, amDiffSn_eq]
  omega

section Report

variable (hs : s.Valid) (hfew : info.nackList.length < rlcAmMaxNackInStatusPdu)
  (hwindow : s.offset info.ackSn ≤ s.offset s.vtS)

/-- The end of a report. -/
theorem accept_outcome {vtANew soStop : ℕ} (hs : s.Valid) (hframe : Frame A L s u) (hnew : vtANew < 1024)
    (hle : s.offset vtANew ≤ s.offset s.vtS) (hsn : sn < 1024) (status : Bool) :
    ∃ t, (if status then u.acceptStatus ackSn vtANew sn soStop else some u) = some t ∧ t.vtA < 1024 ∧
      s.offset t.vtA ≤ s.offset s.vtS ∧ t.acked = s.acked ++ L ∧ t.vtA = if status then vtANew else s.vtA := by
  have hvtA : u.vtA < 1024 := hframe.vtA_eq ▸ hs.vtA_lt
  cases status with
  | false =>
    refine ⟨u, rfl, hvtA, ?_, hframe.acked_eq, hframe.vtA_eq⟩
    rw [hframe.vtA_eq, offset_self]
    exact Nat.zero_le _
  | true =>
    obtain ⟨t, ht, hvtA', hacked⟩ := acceptStatus_total ackSn vtANew soStop
      (hframe.sdusValid hs.toSdusValid) hvtA hsn
    refine ⟨t, ht, hvtA' ▸ hnew, hvtA' ▸ hle, ?_, hvtA'⟩
    rw [hacked, hframe.acked_eq]

/-- The whole of a report, from VT(A) on. -/
theorem scan_from_first {n : Nack} (hvtA : s.vtA < 1024) (hack : ackSn < 1024) (hspan : s.offset ackSn ≤ 512)
    (hpos : ∀ i, (s.txDataPduBuffer i).memBlock.isSome → 0 < (s.txDataPduBuffer i).payloadSize)
    (hle : s.offset n.nackSn ≤ s.offset ackSn) :
    Scanned s ackSn (s.scan ackSn [] (n :: nacks)) 0 s
      ((s.ackRange true s.vtA (s.offset n.nackSn - 0) 0).bind fun v ↦
        v.nackLoop ackSn (1025 + (n :: nacks).length) n.nackSn n.nackSn 0x3FFF (n :: nacks)) := by
  have hhead : ∀ m ∈ ([] : List Nack).head?, s.offset m.nackSn ≤ s.offset n.nackSn := fun m hm ↦ by cases hm
  have hend := (scan_le s ackSn [] (n :: nacks)).trans (s.offset_lt ackSn).le
  have hnSn := snAt_offset hvtA n.sn_lt
  have hstart : (0x3FFF : ℕ) ≠ n.nackSn := by
    have hlt := n.sn_lt
    omega
  have hrest (v : AmTransmitter) (hframe : Frame (slots s.vtA 0 (s.offset n.nackSn - 0))
      ((List.range' 0 (s.offset n.nackSn - 0)).map (snAt s.vtA)) s v) :
      Scanned s ackSn (s.scan ackSn [] (n :: nacks)) (s.offset n.nackSn) v
        (v.nackLoop ackSn (1025 + (n :: nacks).length) n.nackSn n.nackSn 0x3FFF (n :: nacks)) := by
    have hsame (e : ℕ) (hle : s.offset n.nackSn ≤ e) (he : e < 512) :
        v.pduOf (snAt s.vtA e) = s.pduOf (snAt s.vtA e) :=
      hframe.pduOf_eq (not_mem_slots s.vtA (by omega) (by omega))
    rcases hle.lt_or_eq with hlt | heq
    · have hreached : Reached s [] (s.offset n.nackSn) v := by
        refine ⟨fun e hlt' ↦ hsame e hlt'.le, ?_⟩
        rw [hsame _ le_rfl (by omega)]
        exact Nack.Took.nil _
      have hfuel : s.offset ackSn - s.offset n.nackSn + (n :: nacks).length < 1025 + (n :: nacks).length := by
        omega
      have hloop := nackLoop_scanned hvtA hack hspan hpos hreached rfl hlt hhead
        (iff_of_false hstart fun h ↦ h rfl) hfuel
      rwa [hnSn] at hloop
    · have hstop : s.scan ackSn [] (n :: nacks) = ([], s.offset ackSn) := by
        rw [scan, if_neg fun h ↦ h.2.ne heq]
      have hsn : n.nackSn = ackSn := by rw [← hnSn, heq, snAt_offset hvtA hack]
      have hfuel : 1025 + (n :: nacks).length = 1024 + (n :: nacks).length + 1 := by omega
      rw [hstop, heq, ← hsn, hfuel, nackLoop, if_neg (not_not_intro rfl)]
      exact scanned_end rfl v
  rcases hle.lt_or_eq with hlt | heq
  · obtain ⟨hreach, hlooked⟩ := le_scan_cons nacks hhead hlt
    exact Scanned.walk (Nat.zero_le _) (by omega) hlooked hreach hend hvtA (fun _ _ _ ↦ rfl) hrest
  · have hstop : s.scan ackSn [] (n :: nacks) = ([], s.offset ackSn) := by
      rw [scan, if_neg fun h ↦ h.2.ne heq]
    rw [hstop] at hrest hend ⊢
    exact Scanned.walk (Nat.zero_le _) (by omega) (List.forall_mem_nil _) hle hend hvtA (fun _ _ _ ↦ rfl) hrest

include hs hfew hwindow

/-- What a report makes of the transmitter when its first NACK_SN is not behind ACK_SN. -/
theorem receive_scanned (hfirst : ∀ n ∈ info.nackList.head?, s.offset n.nackSn ≤ s.offset info.ackSn) :
    (s.Fails (s.scan info.ackSn [] info.nackList) 0 → s.receiveProcessControlPdu (some info) = none) ∧
      (¬s.Fails (s.scan info.ackSn [] info.nackList) 0 → ∃ t L,
        s.receiveProcessControlPdu (some info) = some t ∧ t.vtA < 1024 ∧ s.offset t.vtA ≤ s.offset s.vtS ∧
          t.acked = s.acked ++ L ∧ s.Releases (s.scan info.ackSn [] info.nackList) 0 L ∧
            ((s.scan info.ackSn [] info.nackList).2 = s.offset info.ackSn →
              t.vtA = nextSn info.ackSn info.nackList)) := by
  have hvtA := hs.vtA_lt
  have hspan : s.offset info.ackSn ≤ 512 := hwindow.trans hs.vtS_le
  have hack : info.ackSn < 1024 := info.ackSn_lt
  have hend := (scan_le s info.ackSn [] info.nackList).trans (s.offset_lt info.ackSn).le
  simp only [receiveProcessControlPdu]
  rw [if_neg (not_not_intro hfew), if_pos (show amDiffSn s.vtS s.vtA ≥ amDiffSn info.ackSn s.vtA from hwindow)]
  cases hlist : info.nackList with
  | nil =>
    have hscanned : Scanned s info.ackSn ([], s.offset info.ackSn) 0 s
        ((s.ackRange true s.vtA (s.offset info.ackSn - 0) 0).bind fun u ↦ some (u, true)) :=
      Scanned.walk (Nat.zero_le _) (by omega) (List.forall_mem_nil _) le_rfl (by omega) hvtA
        (fun _ _ _ ↦ rfl) fun u _ ↦ scanned_end rfl u
    have hup := ackUpTo_eq (s := s) hvtA (Nat.zero_le _) (s.offset_lt info.ackSn) (show _ < 1025 by omega)
    rw [snAt_offset hvtA hack, snAt_zero hvtA] at hup
    simp only [hup]
    cases hrange : s.ackRange true s.vtA (s.offset info.ackSn - 0) 0 with
    | none =>
      rw [hrange] at hscanned
      exact ⟨fun _ ↦ rfl, fun hno ↦ by obtain ⟨u, status, A, L, hsome, -⟩ := hscanned.eq_some hno; cases hsome⟩
    | some v =>
      rw [hrange] at hscanned
      refine ⟨fun hfails ↦ (by cases hscanned.eq_none hfails), fun hno ↦ ?_⟩
      obtain ⟨u, status, A, L, hsome, hframe, hreleases, -⟩ := hscanned.eq_some hno
      obtain ⟨rfl, rfl⟩ := Prod.mk.inj (Option.some.inj hsome)
      obtain ⟨t, ht, hnew, hle, hacked, hvtA'⟩ := accept_outcome hs hframe hack hwindow (amPrevSn_lt _) true
      exact ⟨t, L, ht, hnew, hle, hacked, hreleases, fun _ ↦ hvtA'⟩
  | cons n nacks =>
    rw [hlist] at hfirst hfew hend
    have hle : s.offset n.nackSn ≤ s.offset info.ackSn := hfirst n rfl
    have hscanned : Scanned s info.ackSn (s.scan info.ackSn [] (n :: nacks)) 0 s
        ((s.ackRange true s.vtA (s.offset n.nackSn - 0) 0).bind fun v ↦
          v.nackLoop info.ackSn (1025 + (n :: nacks).length) n.nackSn n.nackSn 0x3FFF (n :: nacks)) :=
      scan_from_first hvtA hack hspan hs.payloadSize_pos hle
    have hup := ackUpTo_eq (s := s) hvtA (Nat.zero_le _) (s.offset_lt n.nackSn) (show _ < 1025 by omega)
    rw [snAt_offset hvtA n.sn_lt, snAt_zero hvtA] at hup
    simp only [hup]
    cases hrange : s.ackRange true s.vtA (s.offset n.nackSn - 0) 0 with
    | none =>
      rw [hrange] at hscanned
      exact ⟨fun _ ↦ rfl, fun hno ↦ by obtain ⟨u, status, A, L, hsome, -⟩ := hscanned.eq_some hno; cases hsome⟩
    | some v =>
      rw [hrange, Option.bind_some] at hscanned
      simp only [Option.bind_eq_bind, Option.bind_some]
      refine ⟨fun hfails ↦ ?_, fun hno ↦ ?_⟩
      · rw [hscanned.eq_none hfails]
        rfl
      · obtain ⟨u, status, A, L, hsome, hframe, hreleases, hstatus⟩ := hscanned.eq_some hno
        obtain ⟨t, ht, hnew, hle', hacked, hvtA'⟩ := accept_outcome hs hframe n.sn_lt (hle.trans hwindow)
          (lastConfirmed_lt n v) status
        refine ⟨t, L, ?_, hnew, hle', hacked, hreleases, fun hend ↦ ?_⟩
        · rw [hsome]
          exact ht
        · rw [hvtA', hstatus.mpr hend]
          rfl

/-- A first NACK_SN behind ACK_SN has the PDU with ACK_SN released. -/
theorem not_safe_of_first (hfirst : ¬∀ n ∈ info.nackList.head?, s.offset n.nackSn ≤ s.offset info.ackSn) :
    ¬s.Safe info := by
  have hvtA := hs.vtA_lt
  rintro ⟨t, ht, -, -, hreleased⟩
  simp only [receiveProcessControlPdu] at ht
  rw [if_neg (not_not_intro hfew), if_pos (show amDiffSn s.vtS s.vtA ≥ amDiffSn info.ackSn s.vtA from hwindow)]
    at ht
  cases hlist : info.nackList with
  | nil =>
    rw [hlist] at hfirst
    exact hfirst fun n hn ↦ by cases hn
  | cons n nacks =>
    have hbehind : s.offset info.ackSn < s.offset n.nackSn := by
      rw [hlist] at hfirst
      refine not_le.mp fun hle ↦ hfirst fun m hm ↦ ?_
      rwa [← Option.some.inj hm]
    have hlt := s.offset_lt n.nackSn
    have hup := ackUpTo_eq (s := s) hvtA (Nat.zero_le _) hlt (show _ < 1025 by omega)
    rw [snAt_offset hvtA n.sn_lt, snAt_zero hvtA] at hup
    simp only [hlist, hup, Option.bind_eq_bind, Option.bind_eq_some_iff] at ht
    obtain ⟨v, hv, ⟨u, status⟩, hu, ht⟩ := ht
    obtain ⟨A, hframe⟩ := ackRange_frame_of_eq hv
    obtain ⟨B, L, hframe'⟩ := nackLoop_frame hu
    have hall := hframe.trans hframe'
    have hacked : t.acked = u.acked := by
      cases status with
      | false => rw [← Option.some.inj ht]
      | true =>
        obtain ⟨w, hw, -, hacked⟩ := acceptStatus_total info.ackSn n.nackSn (v.lastConfirmed n.nackSn).2
          (hall.sdusValid hs.toSdusValid) (hall.vtA_eq.symm ▸ hvtA) (lastConfirmed_lt n v)
        obtain rfl := Option.some.inj (ht.symm.trans hw)
        exact hacked
    have hmem : snAt s.vtA (s.offset info.ackSn) ∈ t.acked.drop s.acked.length := by
      rw [hacked, hall.acked_eq, List.drop_left]
      exact List.mem_append_left _ (List.mem_map_of_mem (List.mem_range'_1.mpr ⟨Nat.zero_le _, by omega⟩))
    have hlt' := (hreleased _ hmem).1
    rw [offset_snAt hvtA (s.offset_lt info.ackSn)] at hlt'
    omega

end Report

/-- The transmitter is safe against exactly the harmless reports. -/
theorem safe_iff (hs : s.Valid) (info : ControlPduInfo) : s.Safe info ↔ s.Harmless info := by
  by_cases hfew : info.nackList.length < rlcAmMaxNackInStatusPdu
  swap
  · refine iff_of_false ?_ fun h ↦ hfew h.1
    rintro ⟨t, ht, -⟩
    simp only [receiveProcessControlPdu] at ht
    rw [if_pos hfew] at ht
    cases ht
  by_cases hwindow : s.offset info.ackSn ≤ s.offset s.vtS
  swap
  · refine iff_of_true ⟨s, ?_, hs.vtA_lt, ?_, ?_⟩ ⟨hfew, fun h ↦ absurd h hwindow⟩
    · simp only [receiveProcessControlPdu]
      rw [if_neg (not_not_intro hfew), if_neg (show ¬amDiffSn s.vtS s.vtA ≥ amDiffSn info.ackSn s.vtA from hwindow)]
    · rw [offset_self]
      exact Nat.zero_le _
    · rw [List.drop_length]
      exact List.forall_mem_nil _
  by_cases hfirst : ∀ n ∈ info.nackList.head?, s.offset n.nackSn ≤ s.offset info.ackSn
  swap
  · exact iff_of_false (not_safe_of_first hs hfew hwindow hfirst) fun h ↦ hfirst (h.2 hwindow).first
  obtain ⟨hnone, hsome⟩ := receive_scanned hs hfew hwindow hfirst
  by_cases hfails : s.Fails (s.scan info.ackSn [] info.nackList) 0
  · refine iff_of_false ?_ fun h ↦ ?_
    · rintro ⟨t, ht, -⟩
      rw [hnone hfails] at ht
      cases ht
    · rcases hfails with ⟨n, hn, hmem, hback⟩ | ⟨d, -, hd, hno, hstuck⟩
      · have hforward := (h.2 hwindow).forward n hn hmem
        omega
      · exact (h.2 hwindow).released d hd hno hstuck
  · obtain ⟨t, L, ht, hvtA, hle, hacked, hreleases, -⟩ := hsome hfails
    have hdrop : t.acked.drop s.acked.length = L := by
      rw [hacked, List.drop_left]
    constructor
    · rintro ⟨u, hu, -, -, hsafe⟩
      obtain rfl := Option.some.inj (ht.symm.trans hu)
      rw [hdrop] at hsafe
      refine ⟨hfew, fun _ ↦ ⟨hfirst, fun n hn hmem ↦ ?_, fun n hn hlt ↦ ?_, fun d hd hno hstuck ↦ ?_⟩⟩
      · exact not_lt.mp fun hback ↦ hfails (.inl ⟨n, hn, hmem, hback⟩)
      · by_contra hno
        have hmem : n.nackSn ∈ L :=
          (hreleases _).mpr ⟨_, Nat.zero_le _, hlt, snAt_offset hs.vtA_lt n.sn_lt, hno⟩
        exact (hsafe _ hmem).2 n hn rfl
      · exact hfails (.inr ⟨d, Nat.zero_le _, hd, hno, hstuck⟩)
    · rintro ⟨-, horder⟩
      refine ⟨t, ht, hvtA, hle, ?_⟩
      rw [hdrop]
      intro sn hsn
      obtain ⟨d, -, hd, rfl, hno⟩ := (hreleases sn).mp hsn
      have hreach := scan_le s info.ackSn [] info.nackList
      have hlt := s.offset_lt info.ackSn
      rw [offset_snAt hs.vtA_lt (by omega)]
      refine ⟨lt_min (by omega) (by omega), fun n hn heq ↦ hno ?_⟩
      rw [← heq]
      refine (horder hwindow).listed n hn ?_
      rwa [heq, offset_snAt hs.vtA_lt (by omega)]

/-- A transmitter that has sent an SDU of four bytes in two PDUs. -/
def twoSent : AmTransmitter :=
  let sent (sn : ℕ) (pdu : Bytes) : AmTxPdu :=
    { AmTxPdu.zero with
      memBlock := some pdu
      payload := 2
      sdusIndex := [0]
      headerAndPayloadSize := 4
      payloadSize := 2
      sn := sn
      nbSdus := 1
      transmitted := true }
  { init with
    inputSdus := update (fun _ ↦ .zero) 0 { AmTxSdu.zero with sduSize := 4, nbPdus := 2 }
    nbSdu := 1
    nextSduIndex := 1
    currentSduIndex := 1
    vtS := 2
    txDataPduBuffer :=
      update (update (fun _ ↦ .zero) 0 (sent 0 [0x88, 0, 1, 2])) 1 (sent 1 [0xB0, 1, 3, 4]) }

theorem twoSent_valid : twoSent.Valid where
  sdusIndex_lt i index hindex := by
    rcases eq_or_ne i 1 with rfl | hone
    · rw [List.mem_singleton.mp hindex]
      decide
    rcases eq_or_ne i 0 with rfl | hzero
    · rw [List.mem_singleton.mp hindex]
      decide
    · simp only [twoSent, update_of_ne hone, update_of_ne hzero] at hindex
      cases hindex
  memBlock_eq_none i _ := by
    rcases eq_or_ne i 0 with rfl | hzero
    · rfl
    · simp only [twoSent, update_of_ne hzero]
      rfl
  nextSduIndex_lt := by decide
  currentSduIndex_lt := by decide
  vtA_lt := by decide
  vtS_le := by decide
  payloadSize_pos i hmem := by
    rcases eq_or_ne i 1 with rfl | hone
    · decide
    rcases eq_or_ne i 0 with rfl | hzero
    · decide
    · simp only [twoSent, update_of_ne hone, update_of_ne hzero] at hmem
      cases hmem

/-- PDU 0 is missing. -/
def firstMissing : ControlPduInfo :=
  ⟨2, true, [{ Nack.zero with soEnd := 0x7FFF, soEnd_lt := Nack.allBytes_lt }],
    Nat.le_of_ble_eq_true rfl⟩

theorem twoSent_safe : twoSent.Safe firstMissing := by
  have hscan : twoSent.scan firstMissing.ackSn [] firstMissing.nackList = (firstMissing.nackList, 2) := by decide
  refine (safe_iff twoSent_valid firstMissing).mpr ⟨by decide, fun _ ↦ ⟨?_, ?_, ?_, ?_⟩⟩
  · decide
  · rw [hscan]
    decide
  · rw [hscan]
    decide
  · rw [hscan]
    decide

/-- A report with a NACK_SN that has not been sent, behind its ACK_SN. -/
def strayNack : ControlPduInfo :=
  ⟨1, true, [⟨5, false, false, 0, 0x7FFF, Nat.le_of_ble_eq_true rfl, Nat.le_of_ble_eq_true rfl,
    Nack.allBytes_lt⟩], Nat.le_of_ble_eq_true rfl⟩

/-- The PDU with SN 1 is released, which has not been acknowledged. -/
theorem strayNack_not_safe : twoSent.Valid ∧ ¬twoSent.Safe strayNack := by
  refine ⟨twoSent_valid, ?_⟩
  rintro ⟨t, ht, -, -, hsafe⟩
  have hacked : (twoSent.receiveProcessControlPdu (some strayNack)).map (·.acked) = some [0, 1, 2, 3, 4] := by
    decide
  rw [ht, Option.map_some] at hacked
  rw [Option.some.inj hacked] at hsafe
  exact absurd (hsafe 1 (by decide)).1 (by decide)

end AmTransmitter

end EdgeSlice.Rlc
