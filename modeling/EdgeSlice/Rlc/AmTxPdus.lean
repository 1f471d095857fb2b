import EdgeSlice.Rlc.AmReportScan
import EdgeSlice.Rlc.AmRetransmit
import Mathlib.Data.List.GetD

namespace EdgeSlice.Rlc

open Function

namespace AmTxPdu

variable {p q r : AmTxPdu} {again increment : Bool} {soStart soEnd size n : ℕ}

/-- The parts that are to be sent again lie within the payload. -/
structure Bounded (p : AmTxPdu) : Prop where
  payloadSize_lt : p.payloadSize < rlcSduMaxSize
  nackSoStart_le : p.nackSoStart ≤ p.payloadSize
  holes : ∀ h ∈ p.holes, h.1 ≤ p.payloadSize ∧ h.2 < p.payloadSize

/-- What acknowledgements and retransmissions leave of a PDU. -/
structure Continues (p q : AmTxPdu) : Prop where
  sn_eq : q.sn = p.sn
  sdusIndex_eq : q.sdusIndex = p.sdusIndex
  nbSdus_eq : q.nbSdus = p.nbSdus
  memBlock_eq_none : p.memBlock = none → q.memBlock = none
  transmitted : q.transmitted = true → p.transmitted = true
  unacknowledged : q.ack = false → p.ack = false ∧ q.memBlock = p.memBlock
  bounded : p.Bounded → q.Bounded

theorem Continues.refl (p : AmTxPdu) : p.Continues p := ⟨rfl, rfl, rfl, id, id, fun h ↦ ⟨h, rfl⟩, id⟩

theorem Continues.trans (h : p.Continues q) (h' : q.Continues r) : p.Continues r where
  sn_eq := h'.sn_eq.trans h.sn_eq
  sdusIndex_eq := h'.sdusIndex_eq.trans h.sdusIndex_eq
  nbSdus_eq := h'.nbSdus_eq.trans h.nbSdus_eq
  memBlock_eq_none := h'.memBlock_eq_none ∘ h.memBlock_eq_none
  transmitted := h.transmitted ∘ h'.transmitted
  unacknowledged hack := by
    obtain ⟨hack', hmem'⟩ := h'.unacknowledged hack
    obtain ⟨hack, hmem⟩ := h.unacknowledged hack'
    exact ⟨hack, hmem'.trans hmem⟩
  bounded := h'.bounded ∘ h.bounded

/-- The PDU has been acknowledged and its block is free. -/
def Released (p : AmTxPdu) : Prop := p.memBlock = none ∧ p.transmitted = false

theorem Continues.released (h : p.Continues q) (hp : p.Released) : q.Released := by
  refine ⟨h.memBlock_eq_none hp.1, Bool.eq_false_iff.mpr fun hsent ↦ ?_⟩
  exact Bool.false_ne_true (hp.2.symm.trans (h.transmitted hsent))

/-- A change of the fields that only retransmissions use. -/
theorem Continues.of_retx (h : p.Bounded → q.Bounded) (hsn : q.sn = p.sn) (hindex : q.sdusIndex = p.sdusIndex)
    (hnb : q.nbSdus = p.nbSdus) (hmem : q.memBlock = p.memBlock) (htx : q.transmitted = p.transmitted)
    (hack : q.ack = p.ack) : p.Continues q :=
  ⟨hsn, hindex, hnb, hmem.trans, htx.symm.trans, fun h ↦ ⟨hack.symm.trans h, hmem⟩, h⟩

theorem continues_of_accepted (h : p.takeNack again soStart soEnd = .accepted q increment size) :
    p.Continues q := by
  simp only [takeNack] at h
  generalize hstop : (if soEnd = rlcAmStatusPduSoEndAllBytes then p.payloadSize - 1 else soEnd) = stop at h
  split_ifs at h with hmem horder hall hfresh hpos hmax hin hagain
  · cases h
    refine .of_retx (fun hp ↦ ⟨hp.payloadSize_lt, Nat.zero_le _, fun _ hh ↦ by cases hh⟩) rfl rfl rfl rfl rfl rfl
  · split at h
    · split_ifs at h with hroom
      cases h
      refine .of_retx (fun hp ↦ ⟨hp.payloadSize_lt, hp.nackSoStart_le, ?_⟩) rfl rfl rfl rfl rfl rfl
      intro hole hmem
      rcases List.mem_append.mp hmem with hmem | hmem
      · exact hp.holes hole hmem
      · obtain rfl := List.mem_singleton.mp hmem
        exact ⟨hin.1.trans hin.2.le, hin.2⟩
    · cases h
  · cases h
    refine .of_retx (fun hp ↦ ⟨hp.payloadSize_lt, hin.1.trans hin.2.le, ?_⟩) rfl rfl rfl rfl rfl rfl
    intro hole hmem
    obtain rfl := List.mem_singleton.mp hmem
    exact ⟨hin.1.trans hin.2.le, hin.2⟩

theorem continues_schedule (p : AmTxPdu) (again increment : Bool) (size : ℕ) :
    p.Continues (p.schedule again increment size).1 := by
  simp only [schedule]
  split_ifs
  all_goals exact .of_retx (fun hp ↦ ⟨hp.payloadSize_lt, hp.nackSoStart_le, hp.holes⟩) rfl rfl rfl rfl rfl rfl

/-- The hole that is sent next lies within the payload. -/
theorem hole_bounded (h : ∀ h ∈ p.holes, h.1 ≤ p.payloadSize ∧ h.2 < p.payloadSize) (hpos : 0 < p.payloadSize) :
    p.hole.2 < p.payloadSize := by
  rw [hole]
  rcases Nat.lt_or_ge p.retxHoleIndex p.holes.length with hlt | hge
  · rw [List.getD_eq_getElem _ _ hlt]
    exact (h _ (List.getElem_mem hlt)).2
  · rw [List.getD_eq_default _ _ hge]
    exact hpos

theorem segmentOfSdu_le (fiStart fiEnd : Bool) (horder : p.hole.1 ≤ p.hole.2) :
    p.hole.1 + (p.segmentOfSdu n fiStart fiEnd).payloadSize ≤ p.hole.2 + 1 := by
  simp only [segmentOfSdu]
  split_ifs <;> omega

theorem segmentOfSdus_le {block : Bytes} {fiStart fiEnd : Bool} {g : AmSegment}
    (h : p.segmentOfSdus n block fiStart fiEnd = some g) (hpos : 0 < p.payloadSize) :
    p.hole.1 + g.payloadSize ≤ p.payloadSize := by
  simp only [segmentOfSdus, Option.bind_eq_bind, Option.bind_eq_some_iff] at h
  obtain ⟨⟨c, fi⟩, -, sizes, -, h⟩ := h
  split_ifs at h with hfits
  cases h
  have hstop := hfits.1
  dsimp only
  omega

theorem nextSegment_le {block : Bytes} {g : AmSegment} (h : p.nextSegment n block = some g)
    (horder : p.hole.1 ≤ p.hole.2) (hhole : p.hole.2 < p.payloadSize) :
    p.hole.1 + g.payloadSize ≤ p.payloadSize := by
  rw [nextSegment] at h
  split_ifs at h
  · cases h
    exact (segmentOfSdu_le _ _ horder).trans hhole
  · exact segmentOfSdus_le h (Nat.zero_lt_of_lt hhole)

theorem advanceHole_bounded (h : p.Bounded) (hsize : p.hole.1 + size ≤ p.payloadSize)
    (hpos : 0 < p.payloadSize) : (p.advanceHole size).Bounded := by
  have hhole := hole_bounded h.holes hpos
  rw [advanceHole]
  dsimp only
  split_ifs with hall hnext
  · refine ⟨h.payloadSize_lt, ?_, h.holes⟩
    rw [List.getD_eq_getElem _ _ hnext]
    exact (h.holes _ (List.getElem_mem hnext)).1
  · exact ⟨h.payloadSize_lt, Nat.zero_le _, fun _ hh ↦ by cases hh⟩
  · refine ⟨h.payloadSize_lt, hsize, fun hole hmem ↦ ?_⟩
    rcases List.mem_or_eq_of_mem_set hmem with hmem | rfl
    · exact h.holes hole hmem
    · exact ⟨hsize, hhole⟩

/-- What one segment of a PDU leaves of it. -/
theorem continues_getAmSegment {pdu : Bytes} (h : p.getAmSegment n = some (q, pdu, size)) : p.Continues q := by
  simp only [getAmSegment, Option.bind_eq_bind, Option.bind_eq_some_iff] at h
  obtain ⟨block, -, h⟩ := h
  split_ifs at h with hpayload
  simp only [Option.bind_eq_some_iff] at h
  obtain ⟨r, hr, h⟩ := h
  by_cases horder : r.hole.1 ≤ r.hole.2 ∧ r.hole.2 - r.hole.1 + 1 ≤ r.payloadSize
  swap
  · rw [if_neg horder] at h
    cases h
  rw [if_pos horder, Option.bind_eq_some_iff] at h
  obtain ⟨g, hg, h⟩ := h
  cases h
  have hpos : 0 < r.payloadSize := by omega
  have hinit : p.Continues r ∧ r.payloadSize = p.payloadSize := by
    rw [initHoles] at hr
    split_ifs at hr
    · cases hr
      refine ⟨.of_retx (fun hp ↦ ⟨hp.payloadSize_lt, hp.nackSoStart_le, ?_⟩) rfl rfl rfl rfl rfl rfl, rfl⟩
      intro hole hmem
      obtain rfl := List.mem_singleton.mp hmem
      exact ⟨Nat.zero_le _, Nat.sub_lt hpos Nat.one_pos⟩
    · cases hr
      exact ⟨.refl _, rfl⟩
  refine hinit.1.trans ?_
  have hsame : (r.advanceHole g.payloadSize).sn = r.sn ∧ (r.advanceHole g.payloadSize).sdusIndex = r.sdusIndex ∧
      (r.advanceHole g.payloadSize).nbSdus = r.nbSdus ∧ (r.advanceHole g.payloadSize).memBlock = r.memBlock ∧
      (r.advanceHole g.payloadSize).transmitted = r.transmitted ∧ (r.advanceHole g.payloadSize).ack = r.ack := by
    rw [advanceHole]
    dsimp only
    split_ifs <;> exact ⟨rfl, rfl, rfl, rfl, rfl, rfl⟩
  obtain ⟨hsn, hindex, hnb, hmem, htx, hack⟩ := hsame
  refine .of_retx (fun hp ↦ advanceHole_bounded hp ?_ hpos) hsn hindex hnb hmem htx hack
  exact nextSegment_le hg horder.1 (hole_bounded hp.holes hpos)

end AmTxPdu

namespace AmTransmitter

variable {s t u : AmTransmitter} {p q : AmTxPdu} {free : Bool} {pdu : Option Bytes} {nacks : List Nack}
  {sn soStart soEnd prevNackSn nackSn ackSn cursor fuel now max a d e n size : ℕ} {status : Bool}

/-- Between `s` and `t` only the PDU buffer has been written, and what belongs to it. -/
structure OnlyPdus (s t : AmTransmitter) : Prop where
  sduBufferOccupancy_eq : t.sduBufferOccupancy = s.sduBufferOccupancy
  inputSdus_eq : t.inputSdus = s.inputSdus
  nbSdu_eq : t.nbSdu = s.nbSdu
  nbSduNoSegmented_eq : t.nbSduNoSegmented = s.nbSduNoSegmented
  nextSduIndex_eq : t.nextSduIndex = s.nextSduIndex
  currentSduIndex_eq : t.currentSduIndex = s.currentSduIndex
  vtA_eq : t.vtA = s.vtA
  vtMs_eq : t.vtMs = s.vtMs
  vtS_eq : t.vtS = s.vtS
  dataConf_eq : t.dataConf = s.dataConf
  pdus : ∀ i, (s.txDataPduBuffer i).Continues (t.txDataPduBuffer i)

namespace OnlyPdus

theorem refl (s : AmTransmitter) : s.OnlyPdus s :=
  ⟨rfl, rfl, rfl, rfl, rfl, rfl, rfl, rfl, rfl, rfl, fun _ ↦ .refl _⟩

theorem trans (h : s.OnlyPdus t) (h' : t.OnlyPdus u) : s.OnlyPdus u where
  sduBufferOccupancy_eq := h'.sduBufferOccupancy_eq.trans h.sduBufferOccupancy_eq
  inputSdus_eq := h'.inputSdus_eq.trans h.inputSdus_eq
  nbSdu_eq := h'.nbSdu_eq.trans h.nbSdu_eq
  nbSduNoSegmented_eq := h'.nbSduNoSegmented_eq.trans h.nbSduNoSegmented_eq
  nextSduIndex_eq := h'.nextSduIndex_eq.trans h.nextSduIndex_eq
  currentSduIndex_eq := h'.currentSduIndex_eq.trans h.currentSduIndex_eq
  vtA_eq := h'.vtA_eq.trans h.vtA_eq
  vtMs_eq := h'.vtMs_eq.trans h.vtMs_eq
  vtS_eq := h'.vtS_eq.trans h.vtS_eq
  dataConf_eq := h'.dataConf_eq.trans h.dataConf_eq
  pdus i := (h.pdus i).trans (h'.pdus i)

theorem setPdu (h : s.OnlyPdus t) (hp : (t.pduOf sn).Continues p) : s.OnlyPdus (t.setPdu sn p) := by
  refine h.trans ⟨rfl, rfl, rfl, rfl, rfl, rfl, rfl, rfl, rfl, rfl, fun i ↦ ?_⟩
  rcases eq_or_ne i (sn % rlcAmWindowSize) with rfl | hne
  · have hself : (t.setPdu sn p).txDataPduBuffer (sn % rlcAmWindowSize) = p := update_self _ _ _
    rw [hself]
    exact hp
  · have hother : (t.setPdu sn p).txDataPduBuffer i = t.txDataPduBuffer i := update_of_ne hne _ _
    rw [hother]
    exact .refl _

theorem of_timer (timer : AmTimer) (pollSn : ℕ) (s : AmTransmitter) :
    s.OnlyPdus { s with tPollRetransmit := timer, pollSn := pollSn } :=
  ⟨rfl, rfl, rfl, rfl, rfl, rfl, rfl, rfl, rfl, rfl, fun _ ↦ .refl _⟩

end OnlyPdus

/-- What is left of a PDU that is acknowledged. -/
theorem continues_acknowledged {mem : Option Bytes} {holes : List (ℕ × ℕ)} (retxPayloadSize : ℕ)
    (hmem : p.memBlock = none → mem = none) (hholes : ∀ hole ∈ holes, hole ∈ p.holes) :
    p.Continues { p with
      memBlock := mem
      holes := holes
      retxPayloadSize := retxPayloadSize
      ack := true
      transmitted := false
      retransmit := false } where
  sn_eq := rfl
  sdusIndex_eq := rfl
  nbSdus_eq := rfl
  memBlock_eq_none := hmem
  transmitted h := by cases h
  unacknowledged h := by cases h
  bounded hp := ⟨hp.payloadSize_lt, hp.nackSoStart_le, fun hole hmem ↦ hp.holes hole (hholes hole hmem)⟩

/-- A PDU is acknowledged. -/
theorem ackPdu_only (h : s.ackPdu sn free = some t) :
    s.OnlyPdus t ∧ (t.pduOf sn).transmitted = false ∧ (free = true → (t.pduOf sn).memBlock = none) := by
  have hframe (b c : ℤ) : s.OnlyPdus
      { s with acked := s.acked ++ [sn], retransNumBytesToRetransmit := b, retransNumPdus := c } :=
    ⟨rfl, rfl, rfl, rfl, rfl, rfl, rfl, rfl, rfl, rfl, fun _ ↦ .refl _⟩
  have hwrite (b c : ℤ) (q : AmTxPdu) (hq : (s.pduOf sn).Continues q) (htx : q.transmitted = false)
      (hmem : free = true → q.memBlock = none) (ht : some ({ s with
        acked := s.acked ++ [sn], retransNumBytesToRetransmit := b, retransNumPdus := c }.setPdu sn q) = some t) :
      s.OnlyPdus t ∧ (t.pduOf sn).transmitted = false ∧ (free = true → (t.pduOf sn).memBlock = none) := by
    obtain rfl := Option.some.inj ht
    rw [pduOf_setPdu]
    exact ⟨(hframe b c).setPdu hq, htx, hmem⟩
  have hnone (holes : List (ℕ × ℕ)) (hole : ℕ × ℕ) (hmem : hole ∈ ([] : List (ℕ × ℕ))) : hole ∈ holes :=
    absurd hmem List.not_mem_nil
  simp only [ackPdu] at h
  split_ifs at h with hmem hretx hack hfree hfree
  · exact hwrite _ _ _ (continues_acknowledged 0 (fun _ ↦ rfl) (hnone _)) rfl (fun _ ↦ rfl) h
  · exact hwrite _ _ _ (continues_acknowledged 0 id (hnone _)) rfl (fun hfree' ↦ absurd hfree' hfree) h
  · exact hwrite _ _ _ (continues_acknowledged _ (fun _ ↦ rfl) fun _ ↦ id) rfl (fun _ ↦ rfl) h
  · exact hwrite _ _ _ (continues_acknowledged _ id fun _ ↦ id) rfl (fun hfree' ↦ absurd hfree' (by assumption)) h
  · exact hwrite _ _ _ (continues_acknowledged _ id fun _ ↦ id) rfl
      (fun _ ↦ Option.not_isSome_iff_eq_none.mp hmem) h

theorem ackRange_only (h : s.ackRange free a n d = some t) : s.OnlyPdus t := by
  induction n generalizing d s with
  | zero =>
    obtain rfl := Option.some.inj h
    exact .refl s
  | succ n ih =>
    rw [ackRange, Option.bind_eq_bind, Option.bind_eq_some_iff] at h
    obtain ⟨u, hack, hrange⟩ := h
    exact (ackPdu_only hack).1.trans (ih hrange)

/-- The PDUs that have been acknowledged are released. -/
theorem ackRange_released (h : s.ackRange true a n d = some t) (hde : d ≤ e) (hed : e < d + n) :
    (t.pduOf (snAt a e)).Released := by
  induction n generalizing d s with
  | zero => omega
  | succ n ih =>
    rw [ackRange, Option.bind_eq_bind, Option.bind_eq_some_iff] at h
    obtain ⟨u, hack, hrange⟩ := h
    rcases hde.eq_or_lt with rfl | hlt
    · obtain ⟨-, htx, hmem⟩ := ackPdu_only hack
      exact ((ackRange_only hrange).pdus (snAt a d % rlcAmWindowSize)).released ⟨hmem rfl, htx⟩
    · exact ih hrange hlt (by omega)

theorem nackPdu_only (h : s.nackPdu sn prevNackSn soStart soEnd = some (t, status)) :
    s.OnlyPdus t ∧ (status = true → (s.pduOf sn).memBlock.isSome) := by
  rw [nackPdu] at h
  split at h
  · cases h
  · cases h
    exact ⟨.refl s, fun hfalse ↦ by cases hfalse⟩
  · next p increment size htake =>
    cases h
    refine ⟨OnlyPdus.setPdu ⟨rfl, rfl, rfl, rfl, rfl, rfl, rfl, rfl, rfl, rfl, fun _ ↦ .refl _⟩ ?_, fun _ ↦ ?_⟩
    · exact (AmTxPdu.continues_of_accepted htake).trans (p.continues_schedule _ _ _)
    · rw [AmTxPdu.takeNack] at htake
      split_ifs at htake with hmem
      all_goals exact Option.isSome_iff_ne_none.mpr fun hnone ↦ hmem (Option.isNone_iff_eq_none.mpr hnone)

theorem nackLoop_only (h : s.nackLoop ackSn fuel cursor nackSn prevNackSn nacks = some (t, status)) :
    s.OnlyPdus t := by
  induction fuel generalizing s cursor nackSn prevNackSn nacks with
  | zero => cases h
  | succ fuel ih =>
    rw [nackLoop] at h
    by_cases hend : cursor = ackSn
    · rw [if_neg (not_not_intro hend)] at h
      cases h
      exact .refl _
    rw [if_pos hend] at h
    by_cases hcursor : cursor = nackSn
    · rw [if_neg (not_not_intro hcursor), Option.bind_eq_bind, Option.bind_eq_some_iff] at h
      obtain ⟨⟨u, taken⟩, hnack, hrest⟩ := h
      have hfirst := (nackPdu_only hnack).1
      simp only at hrest
      split at hrest
      · cases hrest
        exact hfirst
      · split at hrest
        · exact hfirst.trans (ih hrest)
        · split at hrest
          · exact hfirst.trans (ih hrest)
          · cases hrest
            exact hfirst
    · rw [if_pos hcursor, Option.bind_eq_bind, Option.bind_eq_some_iff] at h
      obtain ⟨u, hack, hrest⟩ := h
      exact (ackPdu_only hack).1.trans (ih hrest)

/-- A report that begins with a NACK is accepted only if the PDU is there, or nothing is left to be looked at. -/
theorem nackLoop_first (h : s.nackLoop ackSn (fuel + 1) nackSn nackSn prevNackSn nacks = some (t, true)) :
    nackSn = ackSn ∨ (s.pduOf nackSn).memBlock.isSome := by
  rw [nackLoop] at h
  by_cases hend : nackSn = ackSn
  · exact .inl hend
  rw [if_pos hend, if_neg (not_not_intro rfl), Option.bind_eq_bind, Option.bind_eq_some_iff] at h
  obtain ⟨⟨u, taken⟩, hnack, hrest⟩ := h
  refine .inr ((nackPdu_only hnack).2 (Bool.of_not_eq_false fun hfalse ↦ ?_))
  rw [hfalse] at hrest
  cases hrest

theorem stopPoll_only (ackSn : ℕ) (s : AmTransmitter) : s.OnlyPdus (s.stopPoll ackSn) := by
  rw [stopPoll]
  split_ifs
  · exact .of_timer _ _ s
  · exact .refl s

theorem startTimer_only (now : ℕ) (s : AmTransmitter) : s.OnlyPdus (s.startTimerPollRetransmit now) := by
  rw [startTimerPollRetransmit]
  split_ifs
  all_goals exact .of_timer _ _ s

theorem poll_only (now : ℕ) (s : AmTransmitter) : s.OnlyPdus (s.poll now) := by
  refine OnlyPdus.trans ?_ (startTimer_only now _)
  exact ⟨rfl, rfl, rfl, rfl, rfl, rfl, rfl, rfl, rfl, rfl, fun _ ↦ .refl _⟩

theorem pduPolling_only (now size : ℕ) (isNewPdu : Bool) (s : AmTransmitter) :
    s.OnlyPdus (s.pduPolling now size isNewPdu).1 := by
  have hcount : s.OnlyPdus (if isNewPdu then s.countPdu size else s) := by
    split_ifs
    · exact ⟨rfl, rfl, rfl, rfl, rfl, rfl, rfl, rfl, rfl, rfl, fun _ ↦ .refl _⟩
    · exact .refl s
  have hpoll (t : AmTransmitter) : t.OnlyPdus (if t.mustPoll isNewPdu then (t.poll now, true) else (t, false)).1 := by
    split_ifs
    · exact poll_only now t
    · exact .refl t
  exact hcount.trans (hpoll _)

theorem poll_buffer (now : ℕ) (s : AmTransmitter) : (s.poll now).txDataPduBuffer = s.txDataPduBuffer := by
  rw [poll, startTimerPollRetransmit]
  split_ifs <;> rfl

theorem pduPolling_buffer (now size : ℕ) (isNewPdu : Bool) (s : AmTransmitter) :
    (s.pduPolling now size isNewPdu).1.txDataPduBuffer = s.txDataPduBuffer := by
  have hpoll (t : AmTransmitter) (ht : t.txDataPduBuffer = s.txDataPduBuffer) :
      (if t.mustPoll isNewPdu then (t.poll now, true) else (t, false)).1.txDataPduBuffer = s.txDataPduBuffer := by
    split_ifs
    · exact (poll_buffer now t).trans ht
    · exact ht
  refine hpoll _ ?_
  split_ifs <;> rfl

theorem retransmitted_only (now : ℕ) (bytes : Bytes) (hp : (s.pduOf sn).Continues p) :
    s.OnlyPdus (s.retransmitted now sn size p bytes).1 := by
  rw [retransmitted]
  have hcount (b c : ℤ) : s.OnlyPdus
      (pduPolling now p.payloadSize false { s with retransNumBytesToRetransmit := b, retransNumPdus := c }).1 := by
    refine OnlyPdus.trans ?_ (pduPolling_only _ _ _ _)
    exact ⟨rfl, rfl, rfl, rfl, rfl, rfl, rfl, rfl, rfl, rfl, fun _ ↦ .refl _⟩
  refine (hcount _ _).setPdu ?_
  have hold (b c : ℤ) : (pduPolling now p.payloadSize false
      { s with retransNumBytesToRetransmit := b, retransNumPdus := c }).1.pduOf sn = s.pduOf sn :=
    congrFun (pduPolling_buffer _ _ _ _) _
  rw [hold]
  exact hp.trans (.of_retx (fun hp ↦ ⟨hp.payloadSize_lt, hp.nackSoStart_le, hp.holes⟩) rfl rfl rfl rfl rfl rfl)

theorem retransmitPdu_only (h : s.retransmitPdu max now sn = some (t, pdu)) : s.OnlyPdus t := by
  have hmax : (s.pduOf sn).Continues { s.pduOf sn with maxRetransmit := true } :=
    .of_retx (fun hp ↦ ⟨hp.payloadSize_lt, hp.nackSoStart_le, hp.holes⟩) rfl rfl rfl rfl rfl rfl
  simp only [retransmitPdu] at h
  split_ifs at h with hall hfew hsegment hfew
  · simp only [Option.bind_eq_bind, Option.bind_eq_some_iff] at h
    obtain ⟨bytes, -, h⟩ := h
    cases h
    exact retransmitted_only now bytes (.refl _)
  · cases h
    exact (OnlyPdus.refl s).setPdu hmax
  · simp only [Option.bind_eq_bind, Option.bind_eq_some_iff] at h
    obtain ⟨⟨p, bytes, size⟩, hp, h⟩ := h
    dsimp only at h
    split_ifs at h
    cases h
    exact retransmitted_only now bytes (AmTxPdu.continues_getAmSegment hp)
  · cases h
    exact (OnlyPdus.refl s).setPdu hmax
  · cases h
    exact .refl s

theorem retransmitFlagged_only (h : s.retransmitFlagged max now sn = some (t, pdu)) : s.OnlyPdus t := by
  rw [retransmitFlagged] at h
  split_ifs at h
  · exact retransmitPdu_only h
  · cases h
    exact .refl s

theorem retransmitLoop_only (h : s.retransmitLoop max now fuel sn = some (t, pdu)) : s.OnlyPdus t := by
  induction fuel generalizing s sn with
  | zero => cases h
  | succ fuel ih =>
    rw [retransmitLoop] at h
    simp only [Option.bind_eq_bind, Option.bind_eq_some_iff] at h
    obtain ⟨⟨u, sent⟩, hfirst, hrest⟩ := h
    have honly := retransmitFlagged_only hfirst
    dsimp only at hrest
    split_ifs at hrest
    · cases hrest
      exact honly
    · exact honly.trans (ih hrest)
    · cases hrest
      exact honly

theorem getRetransmission_only (h : s.getRetransmission max now = some (t, pdu)) : s.OnlyPdus t := by
  rw [getRetransmission, getPduToRetransmit] at h
  split_ifs at h
  · exact retransmitLoop_only h
  · cases h
    exact .refl s

theorem pollRetransmitLoop_only (h : s.pollRetransmitLoop e fuel sn = some t) : s.OnlyPdus t := by
  induction fuel generalizing sn with
  | zero => cases h
  | succ fuel ih =>
    simp only [pollRetransmitLoop] at h
    split_ifs at h
    · cases h
      refine OnlyPdus.setPdu ⟨rfl, rfl, rfl, rfl, rfl, rfl, rfl, rfl, rfl, rfl, fun _ ↦ .refl _⟩ ?_
      exact .of_retx (fun hp ↦ ⟨hp.payloadSize_lt, hp.nackSoStart_le, hp.holes⟩) rfl rfl rfl rfl rfl rfl
    · cases h
      refine OnlyPdus.setPdu ⟨rfl, rfl, rfl, rfl, rfl, rfl, rfl, rfl, rfl, rfl, fun _ ↦ .refl _⟩ ?_
      exact .of_retx (fun hp ↦ ⟨hp.payloadSize_lt, hp.nackSoStart_le, hp.holes⟩) rfl rfl rfl rfl rfl rfl
    · exact ih h
    · cases h
      exact .refl _

theorem pollRetransmit_only (h : s.pollRetransmit = some t) : s.OnlyPdus t := by
  rw [pollRetransmit] at h
  split_ifs at h
  · exact pollRetransmitLoop_only h
  · cases h
    exact .refl s

theorem checkTimerPollRetransmit_only (h : s.checkTimerPollRetransmit now = some t) : s.OnlyPdus t := by
  rw [checkTimerPollRetransmit] at h
  split_ifs at h with hexpired
  · simp only [Option.bind_eq_bind, Option.bind_eq_some_iff] at h
    obtain ⟨u, hu, h⟩ := h
    cases h
    refine OnlyPdus.trans ?_ ((pollRetransmit_only hu).trans ?_)
    all_goals exact ⟨rfl, rfl, rfl, rfl, rfl, rfl, rfl, rfl, rfl, rfl, fun _ ↦ .refl _⟩
  · cases h
    exact .refl s

end AmTransmitter

end EdgeSlice.Rlc
