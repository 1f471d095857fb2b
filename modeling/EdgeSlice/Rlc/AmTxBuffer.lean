import EdgeSlice.GuardedRun
import EdgeSlice.Rlc.AmTxWindow

namespace EdgeSlice.Rlc

open Function

theorem DryPass.loopAm_le (sizes : List ℕ) (nbSdus : ℕ) (d : DryPass) :
    (loopAm sizes nbSdus d).1.pduRemainingSize ≤ d.pduRemainingSize := by
  induction sizes generalizing nbSdus d with
  | nil => exact le_rfl
  | cons size sizes ih =>
    rw [loopAm]
    split_ifs
    · exact Nat.sub_le _ _
    · exact Nat.sub_le _ _
    · exact Nat.sub_le _ _
    · exact Nat.sub_le _ _
    · exact ih _ _
    · exact Nat.sub_le _ _

namespace AmTransmitter

variable {s t u : AmTransmitter} {w : List (ℕ × Bytes)} {L sdusIndex : List ℕ} {p : AmTxPdu} {f : AmFilling}
  {accepted : List AmDataReq} {block : ℕ → UInt8} {pdu : Option Bytes} {bytes : Bytes}
  {now max payload size : ℕ} {fiFirst : Bool}

theorem dryPass_le (s : AmTransmitter) : s.dryPass.1.pduRemainingSize ≤ s.dataPduSize := by
  have hloop := DryPass.loopAm_le (s.queue.map fun i ↦ (s.inputSdus i).sduRemainingSize) 0 (.startAm s.dataPduSize)
  refine le_trans ?_ (hloop.trans (Nat.sub_le _ _))
  rw [dryPass]
  dsimp only
  rw [DryPass.dropLi]
  split_ifs
  · exact Nat.sub_le _ _
  · exact le_rfl

theorem mem_queue {i : ℕ} (h : i ∈ s.queue) : i < 1024 ∧ (s.inputSdus i).memBlock.isSome := by
  rw [queue] at h
  have hmem := List.mem_takeWhile_imp h
  obtain ⟨k, -, rfl⟩ := List.mem_map.mp ((List.takeWhile_sublist _).mem h)
  exact ⟨Nat.mod_lt _ (by decide), hmem⟩

/-- A new PDU is put behind the window. -/
theorem WindowKept.append (h : s.WindowKept) (hroom : s.offset s.vtS < 512) (hsn : p.sn = s.vtS)
    (hmem : p.memBlock.isSome) (hbounded : p.Bounded) (hvtA : t.vtA = s.vtA) (hvtMs : t.vtMs = s.vtMs)
    (hvtS : t.vtS = amNextSn s.vtS)
    (hbuffer : t.txDataPduBuffer = update s.txDataPduBuffer (s.vtS % rlcAmWindowSize) p) :
    t.WindowKept ∧ t.offset t.vtS = s.offset s.vtS + 1 ∧
      (∀ d < s.offset s.vtS, t.pduOf (snAt s.vtA d) = s.pduOf (snAt s.vtA d)) ∧
        t.pduOf (snAt s.vtA (s.offset s.vtS)) = p := by
  have hlast : snAt s.vtA (s.offset s.vtS) = s.vtS := snAt_offset h.vtA_lt h.vtS_lt
  have hnext : amNextSn s.vtS = snAt s.vtA (s.offset s.vtS + 1) := by rw [← amNextSn_snAt, hlast]
  have hoffset : t.offset t.vtS = s.offset s.vtS + 1 := by
    rw [offset, hvtS, hvtA, hnext]
    exact amDiffSn_snAt h.vtA_lt (by omega)
  have hself : t.pduOf (snAt s.vtA (s.offset s.vtS)) = p := by
    rw [pduOf, hbuffer, hlast, update_self]
  have hother (d : ℕ) (hne : snAt s.vtA d % rlcAmWindowSize ≠ snAt s.vtA (s.offset s.vtS) % rlcAmWindowSize) :
      t.pduOf (snAt s.vtA d) = s.pduOf (snAt s.vtA d) := by
    rw [hlast] at hne
    rw [pduOf, hbuffer, update_of_ne hne]
    rfl
  have hbefore (d : ℕ) (hd : d < s.offset s.vtS) : t.pduOf (snAt s.vtA d) = s.pduOf (snAt s.vtA d) :=
    hother d (slot_ne _ hd (by omega))
  refine ⟨⟨?_, ?_, ?_, ?_, ?_, ?_, ?_, ?_⟩, hoffset, hbefore, hself⟩
  · exact hvtA ▸ h.vtA_lt
  · rw [hvtS, hnext]
    exact snAt_lt _ _
  · rw [hvtMs, hvtA]
    exact h.vtMs_eq
  · omega
  · intro d hd
    rw [hoffset] at hd
    rw [hvtA]
    rcases Nat.lt_succ_iff_lt_or_eq.mp hd with hlt | rfl
    · rw [hbefore d hlt]
      exact h.sn_eq d hlt
    · rw [hself, hsn, hlast]
  · intro d hd hack
    rw [hoffset] at hd
    rw [hvtA] at hack ⊢
    rcases Nat.lt_succ_iff_lt_or_eq.mp hd with hlt | rfl
    · rw [hbefore d hlt] at hack ⊢
      exact h.held d hlt hack
    · rw [hself]
      exact hmem
  · intro d hle hlt
    rw [hoffset] at hle
    rw [hvtA, hother d (slot_ne _ (show s.offset s.vtS < d by omega) (by omega)).symm]
    exact h.stale d (by omega) hlt
  · intro i
    rw [hbuffer]
    rcases eq_or_ne i (s.vtS % rlcAmWindowSize) with rfl | hne
    · rw [update_self]
      exact hbounded
    · rw [update_of_ne hne]
      exact h.bounded i

/-- The new PDU takes over the references to the SDUs that it lists. -/
theorem TxKept.sendPdu (h : s.WindowKept) (hroom : s.offset s.vtS < 512) (hsdus : SdusKept (s.refs ++ sdusIndex) w s)
    (hoccupancy : f.bufferOccupancy = remaining s.inputSdus) (hpayload : f.payloadSize + f.pduRemainingSize ≤ size)
    (ht : s.sendPdu now fiFirst size sdusIndex f payload = some (t, bytes)) : TxKept w t := by
  rw [AmTransmitter.sendPdu] at ht
  dsimp only at ht
  by_cases hsize : size - f.pduRemainingSize < rlcSduMaxSize
  swap
  · rw [if_neg hsize] at ht
    cases ht
  rw [if_pos hsize] at ht
  cases ht
  have hpoll := pduPolling_only now f.payloadSize true
    { s with sduBufferOccupancy := f.bufferOccupancy, vtS := amNextSn s.vtS }
  have hbuffer := pduPolling_buffer now f.payloadSize true
    { s with sduBufferOccupancy := f.bufferOccupancy, vtS := amNextSn s.vtS }
  generalize (pduPolling now f.payloadSize true
    { s with sduBufferOccupancy := f.bufferOccupancy, vtS := amNextSn s.vtS }).1 = v at hpoll hbuffer ⊢
  generalize hp : (AmTxPdu.mk _ _ _ _ _ _ _ _ _ _ _ _ _ _ _ _ _ _ _) = p
  have hwritten : (v.setPdu s.vtS p).txDataPduBuffer = update s.txDataPduBuffer (s.vtS % rlcAmWindowSize) p :=
    congrArg (update · _ _) hbuffer
  have hlt : f.payloadSize < rlcSduMaxSize := lt_of_le_of_lt (Nat.le_sub_of_add_le hpayload) hsize
  obtain ⟨hwindow, hoffset, hbefore, hself⟩ := h.append hroom (p := p) (t := v.setPdu s.vtS p) (by rw [← hp])
    (by rw [← hp]; rfl) (by rw [← hp]; exact ⟨hlt, Nat.zero_le _, fun _ hh ↦ by cases hh⟩) hpoll.vtA_eq
    hpoll.vtMs_eq hpoll.vtS_eq hwritten
  have hrefs : (v.setPdu s.vtS p).refs = s.refs ++ p.listed := by
    have hvtA : (v.setPdu s.vtS p).vtA = s.vtA := hpoll.vtA_eq
    rw [refs, hoffset, hvtA, refsRange_add, refs]
    refine congrArg₂ _ (refsRange_congr fun k _ hk ↦ ?_) ?_
    · exact congrArg AmTxPdu.listed (hbefore k (by omega))
    · rw [Nat.zero_add]
      exact (List.append_nil _).trans (congrArg AmTxPdu.listed hself)
  refine ⟨hwindow, ?_, ?_⟩
  · have hlisted : SdusKept (s.refs ++ p.listed) w s := by
      refine hsdus.mono fun i ↦ ?_
      rw [List.count_append, List.count_append]
      have hsub : p.listed.count i ≤ sdusIndex.count i := by
        rw [← hp]
        exact (List.take_sublist _ _).count_le i
      omega
    have hsame : { s with sduBufferOccupancy := f.bufferOccupancy, vtS := amNextSn s.vtS }.OnlyPdus
        { v with txDataPduBuffer := s.txDataPduBuffer } :=
      ⟨hpoll.sduBufferOccupancy_eq, hpoll.inputSdus_eq, hpoll.nbSdu_eq, hpoll.nbSduNoSegmented_eq,
        hpoll.nextSduIndex_eq, hpoll.currentSduIndex_eq, hpoll.vtA_eq, hpoll.vtMs_eq, hpoll.vtS_eq,
        hpoll.dataConf_eq, fun _ ↦ .refl _⟩
    have hkept := hsame.sdusKept (L := s.refs ++ p.listed) (w := w)
      ⟨hlisted.slots, hlisted.ring, hlisted.begun, hlisted.nbSdu_eq, hlisted.nbSduNoSegmented_eq, hlisted.refs⟩
    rw [hrefs]
    exact ⟨hkept.slots, hkept.ring, hkept.begun, hkept.nbSdu_eq, hkept.nbSduNoSegmented_eq, hkept.refs⟩
  · have hinput : (v.setPdu s.vtS p).inputSdus = s.inputSdus := hpoll.inputSdus_eq
    rw [hinput]
    exact hpoll.sduBufferOccupancy_eq.trans hoccupancy

/-- A PDU is built from the SDUs that wait, in the order in which they wait. -/
theorem TxKept.segment10 (h : TxKept w s) (hroom : s.offset s.vtS < 512)
    (ht : s.segment10 now block = some (t, pdu)) : ∃ done w', w = done ++ w' ∧ TxKept w' t := by
  rw [AmTransmitter.segment10] at ht
  dsimp only at ht
  split_ifs at ht with hempty
  · cases ht
    exact ⟨[], w, rfl, h⟩
  simp only [Option.bind_eq_bind, Option.bind_eq_some_iff] at ht
  obtain ⟨u, hu, ⟨f, v⟩, hv, ⟨x, bytes⟩, hx, ht⟩ := ht
  cases ht
  obtain ⟨hlisted, hremaining, honly⟩ := h.sdus.listSdus (fun i hi ↦ mem_queue (List.mem_of_mem_take hi)) hu
  obtain ⟨done, w', hdone, hfilled, hoccupancy, honly', hpayload⟩ :=
    hlisted.fillLoop (h.occupancy.trans hremaining.symm) hv
  have hboth := honly.trans honly'
  have hrefs : v.refs = s.refs := by
    obtain ⟨_, _, _, _, _, rfl⟩ := hboth
    rfl
  have hoffset : v.offset v.vtS = s.offset s.vtS := by
    obtain ⟨_, _, _, _, _, rfl⟩ := hboth
    rfl
  rw [← hrefs] at hfilled
  have hstart (n m k : ℕ) : (startFilling block n m k).payloadSize + (startFilling block n m k).pduRemainingSize = m :=
    Nat.zero_add m
  rw [hstart] at hpayload
  exact ⟨done, w', hdone, TxKept.sendPdu (hboth.windowKept h.window) (hoffset ▸ hroom) hfilled hoccupancy
    (hpayload.trans s.dryPass_le) hx⟩

theorem TxKept.getPdus (h : TxKept w s) (ht : s.getPdus max now block = some (t, pdu)) :
    ∃ done w', w = done ++ w' ∧ TxKept w' t := by
  rw [AmTransmitter.getPdus] at ht
  simp only [Option.bind_eq_bind, Option.bind_eq_some_iff] at ht
  obtain ⟨⟨u, sent⟩, hu, ht⟩ := ht
  have hkept := (getRetransmission_only hu).kept h
  dsimp only at ht
  split_ifs at ht with hsent hnew
  · cases ht
    exact ⟨[], w, rfl, hkept⟩
  · have hle := hkept.window.le
    have hvtS : snAt u.vtA (u.offset u.vtS) = u.vtS := snAt_offset hkept.window.vtA_lt hkept.window.vtS_lt
    have hne : u.offset u.vtS ≠ 512 := by
      intro heq
      rw [heq, ← hkept.window.vtMs_eq] at hvtS
      exact hnew.2.2 hvtS.symm
    exact hkept.segment10 (by omega) ht
  · cases ht
    exact ⟨[], w, rfl, hkept⟩

/-- The guard of `rlc_am_data_req`. -/
def Accepts (s : AmTransmitter) : Prop :=
  (s.inputSdus s.nextSduIndex).memBlock.isNone ∧
    (s.nextSduIndex + 1) % rlcAmSduControlBufferSize ≠ s.currentSduIndex

instance (s : AmTransmitter) : Decidable s.Accepts := inferInstanceAs (Decidable (_ ∧ _))

/-- The SDUs that have been accepted after an event. -/
def accept (accepted : List AmDataReq) (s : AmTransmitter) : AmTxEvent → List AmDataReq
  | .dataReq req => if s.Accepts then accepted ++ [req] else accepted
  | _ => accepted

/-- A step of the transmitter, with the SDUs that it has accepted since the beginning. -/
def track (max : ℕ) (x : AmTxEvent) (r : AmTransmitter × List AmDataReq) :
    Option (AmTransmitter × List AmDataReq) :=
  (step max x r.1).map fun t ↦ (t, accept r.2 r.1 x)

/-- An SDU is not accepted into a slot whose SDU has not been confirmed. -/
def TakesFreeSlot (r : AmTransmitter × List AmDataReq) : AmTxEvent → Prop
  | .dataReq _ => r.1.Accepts → (r.1.inputSdus r.1.nextSduIndex).sduSize = 0
  | _ => True

/-- The SDUs that are not fully segmented are the last ones that have been accepted, in this order, and only
the first of them has been begun. -/
def InArrivalOrder (accepted : List AmDataReq) (s : AmTransmitter) : Prop :=
  (∃ segmented waiting gap, (accepted.map fun req ↦ (req.mui, req.data)) = segmented ++ waiting ∧
      RingQueue.Holds 1024 s.waitingAt s.currentSduIndex s.nextSduIndex gap waiting) ∧
    ∀ i, (s.inputSdus i).memBlock.isSome → i ≠ s.currentSduIndex → (s.inputSdus i).sduSegmentedSize = 0

/-- The counters fit the SDU buffer, and no PDU of the window has been overwritten. -/
structure BufferKept (accepted : List AmDataReq) (s : AmTransmitter) : Prop where
  occupancy : s.sduBufferOccupancy = remaining s.inputSdus
  nbSdu : s.nbSdu = (occupied s.inputSdus).card
  nbSduNoSegmented : s.nbSduNoSegmented = (unsegmented s.inputSdus).card
  arrival : s.InArrivalOrder accepted
  window : amDiffSn s.vtS s.vtA ≤ 512
  held : ∀ d < amDiffSn s.vtS s.vtA, (s.pduOf (snAt s.vtA d)).sn = snAt s.vtA d ∧
    ((s.pduOf (snAt s.vtA d)).ack = false → (s.pduOf (snAt s.vtA d)).memBlock.isSome)

theorem start_offset (pollPdu pollByte msDuration : ℕ) :
    (start pollPdu pollByte msDuration).offset (start pollPdu pollByte msDuration).vtS = 0 := by
  have hempty : amDiffSn 0 0 = 0 := by decide
  exact hempty

theorem TxKept.start (pollPdu pollByte msDuration : ℕ) : TxKept [] (start pollPdu pollByte msDuration) where
  window := by
    have hempty := start_offset pollPdu pollByte msDuration
    have hbounded : AmTxPdu.zero.Bounded := ⟨by decide, Nat.le_refl 0, fun _ hh ↦ by cases hh⟩
    refine ⟨Nat.zero_lt_succ _, Nat.zero_lt_succ _, vtMs_snAt 0, ?_, fun d hd ↦ ?_, fun d hd ↦ ?_,
      fun _ _ _ ↦ ⟨rfl, rfl⟩, fun _ ↦ hbounded⟩
    · rw [hempty]
      exact Nat.zero_le _
    · rw [hempty] at hd
      exact absurd hd (Nat.not_lt_zero d)
    · rw [hempty] at hd
      exact absurd hd (Nat.not_lt_zero d)
  sdus := by
    rw [refs, start_offset]
    exact SdusKept.init _ _ _
  occupancy := by
    have hzero : remaining (fun _ ↦ AmTxSdu.zero) = 0 := by
      rw [remaining]
      exact Finset.sum_eq_zero fun _ _ ↦ rfl
    exact hzero.symm

theorem TxKept.dataReq {req : AmDataReq} (h : TxKept w s) (haccepts : s.Accepts)
    (hfree : (s.inputSdus s.nextSduIndex).sduSize = 0) : TxKept (w ++ [(req.mui, req.data)]) (s.dataReq req) := by
  obtain ⟨hsdus, hremaining, hoccupancy⟩ := h.sdus.dataReq req
    (Option.isNone_iff_eq_none.mp haccepts.1) haccepts.2 hfree
  have heq : s.dataReq req = { s with
      sduBufferOccupancy := s.sduBufferOccupancy + req.data.length
      nbSdu := s.nbSdu + 1
      nbSduNoSegmented := s.nbSduNoSegmented + 1
      nextSduIndex := (s.nextSduIndex + 1) % rlcAmSduControlBufferSize }.setSdu s.nextSduIndex (.ofReq req) :=
    if_pos haccepts
  refine ⟨?_, ?_, ?_⟩
  · rw [heq]
    exact ⟨h.window.vtA_lt, h.window.vtS_lt, h.window.vtMs_eq, h.window.le, h.window.sn_eq, h.window.held,
      h.window.stale, h.window.bounded⟩
  · rw [heq] at hsdus ⊢
    exact hsdus
  · rw [hoccupancy, hremaining, h.occupancy]

/-- What one event keeps. -/
theorem TxKept.step {x : AmTxEvent} (h : TxKept w s) {segmented : List (ℕ × Bytes)}
    (haccepted : (accepted.map fun req ↦ (req.mui, req.data)) = segmented ++ w)
    (hfree : TakesFreeSlot (s, accepted) x) (ht : step max x s = some t) :
    ∃ segmented' w', ((accept accepted s x).map fun req ↦ (req.mui, req.data)) = segmented' ++ w' ∧
      TxKept w' t := by
  cases x with
  | dataReq req =>
    cases ht
    by_cases haccepts : s.Accepts
    · refine ⟨segmented, _, ?_, h.dataReq haccepts (hfree haccepts)⟩
      rw [accept, if_pos haccepts, List.map_append, haccepted, List.append_assoc]
      rfl
    · have hsame : s.dataReq req = s := if_neg haccepts
      rw [hsame]
      refine ⟨segmented, w, ?_, h⟩
      rw [accept, if_neg haccepts]
      exact haccepted
  | getPdus now size block =>
    obtain ⟨⟨u, pdu⟩, hu, rfl⟩ := Option.map_eq_some_iff.mp ht
    have hgrant : s.OnlyPdus { s with nbBytesRequestedByMac := size } :=
      ⟨rfl, rfl, rfl, rfl, rfl, rfl, rfl, rfl, rfl, rfl, fun _ ↦ .refl _⟩
    obtain ⟨done, w', rfl, hkept⟩ := (hgrant.kept h).getPdus hu
    exact ⟨segmented ++ done, w', haccepted.trans (List.append_assoc _ _ _).symm, hkept⟩
  | status info => exact ⟨segmented, w, haccepted, h.receive ht⟩
  | timer now => exact ⟨segmented, w, haccepted, (checkTimerPollRetransmit_only ht).kept h⟩

/-- In a run that never puts an SDU into the slot of one that has not been confirmed, the counters fit the SDU
buffer, the SDUs are segmented in the order of their arrival, and no unacknowledged PDU is overwritten. -/
theorem bufferKept_of_run {pollPdu pollByte msDuration : ℕ}
    (h : GuardedRun (track max) TakesFreeSlot (start pollPdu pollByte msDuration, []) (s, accepted)) :
    s.BufferKept accepted := by
  have hkept : ∃ segmented w, (accepted.map fun req ↦ (req.mui, req.data)) = segmented ++ w ∧ TxKept w s := by
    refine h.invariant (P := fun r ↦ ∃ segmented w, (r.2.map fun req ↦ (req.mui, req.data)) = segmented ++ w ∧
      TxKept w r.1) ⟨[], [], rfl, .start _ _ _⟩ fun b x c hb hgood hx ↦ ?_
    obtain ⟨segmented, w, haccepted, hkept⟩ := hb
    obtain ⟨t, ht, rfl⟩ := Option.map_eq_some_iff.mp hx
    exact hkept.step haccepted hgood ht
  obtain ⟨segmented, w, haccepted, hkept⟩ := hkept
  obtain ⟨gap, hring⟩ := hkept.sdus.ring
  refine ⟨hkept.occupancy, hkept.sdus.nbSdu_eq, hkept.sdus.nbSduNoSegmented_eq,
    ⟨⟨segmented, w, gap, haccepted, hring⟩, hkept.sdus.begun⟩, hkept.window.le, fun d hd ↦ ?_⟩
  exact ⟨hkept.window.sn_eq d hd, hkept.window.held d hd⟩

def oneByte (mui : ℕ) : AmDataReq := ⟨mui, [0], by decide, by decide⟩

/-- An SDU of one byte is accepted and sent. -/
theorem bufferKept_of_oneByte :
    ∃ r, [.dataReq (oneByte 0), .getPdus 0 3 fun _ ↦ 0].foldlM (fun r x ↦ track 4 x r) (start 4 1000 40, []) =
      some r ∧ r.1.BufferKept r.2 := by
  have hsome : ((track 4 (.dataReq (oneByte 0)) (start 4 1000 40, [])).bind
      (track 4 (.getPdus 0 3 fun _ ↦ 0))).isSome = true := by decide +kernel
  obtain ⟨c, hc⟩ := Option.isSome_iff_exists.mp hsome
  obtain ⟨b, hb, hbc⟩ := Option.bind_eq_some_iff.mp hc
  have hfold : [.dataReq (oneByte 0), .getPdus 0 3 fun _ ↦ 0].foldlM (fun r x ↦ track 4 x r)
      (start 4 1000 40, []) = some c := by
    simp [hb, hbc]
  have hfirst : TakesFreeSlot (start 4 1000 40, []) (.dataReq (oneByte 0)) := fun _ ↦ rfl
  have hsecond : TakesFreeSlot b (.getPdus 0 3 fun _ ↦ 0) := trivial
  exact ⟨c, hfold, bufferKept_of_run (.snoc (.snoc .nil hfirst hb) hsecond hbc)⟩

/-- So many SDUs of one byte wait. -/
def full (n : ℕ) : AmTransmitter :=
  { start 4 1000 40 with
    sduBufferOccupancy := n
    inputSdus := fun i ↦ if i < n then .ofReq (oneByte i) else .zero
    nbSdu := n
    nbSduNoSegmented := n
    nextSduIndex := n }

theorem full_dataReq {n : ℕ} (hn : n < 1023) :
    (full n).Accepts ∧ (full n).dataReq (oneByte n) = full (n + 1) := by
  have hnext : (n + 1) % rlcAmSduControlBufferSize = n + 1 := Nat.mod_eq_of_lt (by omega : n + 1 < 1024)
  have haccepts : (full n).Accepts := by
    refine ⟨?_, ?_⟩
    · have hslot : (full n).inputSdus (full n).nextSduIndex = .zero := if_neg (Nat.lt_irrefl n)
      rw [hslot]
      rfl
    · exact fun heq ↦ absurd (hnext.symm.trans heq) (Nat.succ_ne_zero n)
  refine ⟨haccepts, ?_⟩
  have htable : update (full n).inputSdus n (.ofReq (oneByte n)) = (full (n + 1)).inputSdus := by
    funext i
    rcases eq_or_ne i n with rfl | hne
    · rw [update_self]
      exact (if_pos (Nat.lt_succ_self i)).symm
    · rw [update_of_ne hne]
      exact if_congr ⟨fun h ↦ by omega, fun h ↦ by omega⟩ rfl rfl
  have heq : (full n).dataReq (oneByte n) = { full (n + 1) with
      inputSdus := update (full n).inputSdus n (.ofReq (oneByte n))
      nextSduIndex := (n + 1) % rlcAmSduControlBufferSize } := if_pos haccepts
  rw [heq, htable, hnext]
  rfl

theorem full_run {n : ℕ} (hn : n ≤ 1023) : GuardedRun (track 4) (fun _ _ ↦ True) (start 4 1000 40, [])
    (full n, (List.range n).map oneByte) := by
  induction n with
  | zero =>
    have hempty : full 0 = start 4 1000 40 := by
      rw [full]
      congr 1
    rw [hempty]
    exact .nil
  | succ n ih =>
    obtain ⟨haccepts, hreq⟩ := full_dataReq (show n < 1023 by omega)
    refine .snoc (ih (by omega)) (x := .dataReq (oneByte n)) trivial ?_
    rw [track, step, Option.map_some, hreq, accept, if_pos haccepts, List.range_succ, List.map_append]
    rfl

/-- Two SDUs are segmented, and their slots are not free, but one of them is taken. -/
def overtake : List AmTxEvent :=
  [.getPdus 0 3 (fun _ ↦ 0), .dataReq (oneByte 1023), .getPdus 1 3 (fun _ ↦ 0), .dataReq (oneByte 1024)]

/-- The slot of an SDU that has not been confirmed is overwritten, and more SDUs are counted than there are
slots. -/
theorem overfull_not_bufferKept : ¬∀ max pollPdu pollByte msDuration s accepted,
    GuardedRun (track max) (fun _ _ ↦ True) (start pollPdu pollByte msDuration, []) (s, accepted) →
      s.BufferKept accepted := by
  intro hall
  have hcount : (overtake.foldlM (fun r x ↦ track 4 x r) (full 1023, (List.range 1023).map oneByte)).map
      (fun r ↦ r.1.nbSdu) = some 1025 := by decide +kernel
  obtain ⟨⟨s, accepted⟩, hrun, hnbSdu⟩ := Option.map_eq_some_iff.mp hcount
  have hkept := hall 4 4 1000 40 s accepted ((full_run le_rfl).trans (.of_foldlM hrun))
  have hle : (occupied s.inputSdus).card ≤ 1024 :=
    (Finset.card_filter_le _ _).trans (Nat.le_of_eq (Finset.card_range 1024))
  have heq := hkept.nbSdu
  rw [show s.nbSdu = 1025 from hnbSdu] at heq
  omega

end AmTransmitter

end EdgeSlice.Rlc

namespace EdgeSlice.Rlc

open Function

variable {s t u : AmTransmitter} {f f' : AmFilling} {d d' : DryPass} {sizes L : List ℕ} {w : List (ℕ × Bytes)}
  {nbSdus nbSdus' testNumLi fuel i : ℕ}

theorem DryPass.lt_loopAm {size : ℕ} (h : DryPass.loopAm (size :: sizes) nbSdus d = (d', nbSdus')) :
    nbSdus < nbSdus' := by
  induction sizes generalizing size nbSdus d with
  | nil =>
    rw [loopAm] at h
    split_ifs at h <;> cases h <;> exact Nat.lt_succ_self _
  | cons next sizes ih =>
    rw [loopAm] at h
    split_ifs at h
    · cases h
      exact Nat.lt_succ_self _
    · cases h
      exact Nat.lt_succ_self _
    · cases h
      exact Nat.lt_succ_self _
    · cases h
      exact Nat.lt_succ_self _
    · exact Nat.lt_of_succ_lt (ih h)
    · cases h
      exact Nat.lt_succ_self _

namespace AmTransmitter

theorem SdusKept.endSdu_other (h : SdusKept L w s) (hmem : (s.inputSdus s.currentSduIndex).memBlock.isSome)
    (hne : i ≠ s.currentSduIndex) : s.endSdu.inputSdus i = s.inputSdus i := by
  have hle : s.currentSduIndex ≤ rlcAmSduControlBufferSize := h.current_lt.le
  rw [AmTransmitter.endSdu, freeInSduData, if_pos ⟨hle, hmem⟩]
  exact setSdu_other _ _ hne

theorem SdusKept.endSdu_same (h : SdusKept L w s) (hmem : (s.inputSdus s.currentSduIndex).memBlock.isSome) :
    s.endSdu.inputSdus s.currentSduIndex = (s.inputSdus s.currentSduIndex).freeData := by
  have hle : s.currentSduIndex ≤ rlcAmSduControlBufferSize := h.current_lt.le
  rw [AmTransmitter.endSdu, freeInSduData, if_pos ⟨hle, hmem⟩]
  exact setSdu_same _ _ _

/-- The current SDU leaves the queue. -/
theorem SdusKept.queue_cons (h : SdusKept L w s) (hmem : (s.inputSdus s.currentSduIndex).memBlock.isSome) :
    s.queue = s.currentSduIndex :: s.endSdu.queue := by
  rw [queue, queue]
  refine RingQueue.takeWhile_ring h.current_lt hmem ?_ fun i hne ↦ ?_
  · rw [h.endSdu_same hmem]
    rfl
  · rw [h.endSdu_other hmem hne]

theorem SdusKept.queue_sizes (h : SdusKept L w s) (hmem : (s.inputSdus s.currentSduIndex).memBlock.isSome) :
    s.queue.map (fun i ↦ (s.inputSdus i).sduRemainingSize) = (s.inputSdus s.currentSduIndex).sduRemainingSize ::
      s.endSdu.queue.map fun i ↦ (s.endSdu.inputSdus i).sduRemainingSize := by
  rw [h.queue_cons hmem, List.map_cons]
  refine congrArg _ (List.map_congr_left fun i hi ↦ ?_)
  have hsome := (mem_queue hi).2
  refine congrArg _ (h.endSdu_other hmem ?_).symm
  rintro rfl
  rw [h.endSdu_same hmem] at hsome
  cases hsome

theorem addSdu_counts (testNumLi : ℕ) (sdu : AmTxSdu) (f : AmFilling) :
    (f.addSdu testNumLi sdu).liLengthInBytes = f.liLengthInBytes ^^^ 3 ∧
      (f.addSdu testNumLi sdu).fillNumLi = f.fillNumLi + 1 := by
  simp only [AmFilling.addSdu, Filling.writeLi]
  split_ifs <;> exact ⟨rfl, rfl⟩

/-- The SDUs that end in the PDU are listed by it: the pass that fills it has no more room than the pass
before it, and its length indicators are of the same sizes. -/
theorem SdusKept.fillLoop_listed (h : SdusKept L w s) (ht : s.fillLoop testNumLi fuel f = some (f', t))
    (hd : DryPass.loopAm (s.queue.map fun i ↦ (s.inputSdus i).sduRemainingSize) nbSdus d = (d', nbSdus'))
    (hroom : f.pduRemainingSize ≤ d.testPduRemainingSize) (hli : f.liLengthInBytes = d.testLiLengthInBytes)
    (hnum : f.fillNumLi = nbSdus) (hfew : nbSdus ≤ 127) (hmem : (s.inputSdus i).memBlock.isSome)
    (hended : (t.inputSdus i).memBlock = none) : i ∈ s.queue.take (nbSdus' - nbSdus) := by
  induction fuel generalizing s f d w nbSdus with
  | zero => cases ht
  | succ fuel ih =>
    rw [AmTransmitter.fillLoop] at ht
    dsimp only at ht
    by_cases hcurrent : (s.inputSdus s.currentSduIndex).memBlock.isSome
    swap
    · rw [if_neg hcurrent] at ht
      cases ht
      rw [hended] at hmem
      cases hmem
    rw [if_pos hcurrent] at ht
    obtain ⟨sdu, rest, rfl, hkept, -, -⟩ := h.endSdu hcurrent
    rw [h.queue_sizes hcurrent] at hd
    have hlt := DryPass.lt_loopAm hd
    have htake : s.queue.take (nbSdus' - nbSdus) =
        s.currentSduIndex :: s.endSdu.queue.take (nbSdus' - (nbSdus + 1)) := by
      rw [h.queue_cons hcurrent, show nbSdus' - nbSdus = nbSdus' - (nbSdus + 1) + 1 by omega]
      exact List.take_succ_cons
    rw [htake]
    -- Only the current SDU ends when the pass stops.
    have hstop (hended : (s.endSdu.inputSdus i).memBlock = none) :
        i ∈ s.currentSduIndex :: s.endSdu.queue.take (nbSdus' - (nbSdus + 1)) := by
      rcases eq_or_ne i s.currentSduIndex with rfl | hne
      · exact List.mem_cons_self
      · rw [h.endSdu_other hcurrent hne] at hended
        rw [hended] at hmem
        cases hmem
    split_ifs at ht with hlarger hequal hsmaller hlimit
    · cases ht
      have hnone : (s.inputSdus i).memBlock = none := by
        rcases eq_or_ne i s.currentSduIndex with rfl | hne
        · rw [setSdu_same] at hended
          exact hended
        · rwa [setSdu_other _ _ hne] at hended
      rw [hnone] at hmem
      cases hmem
    · cases ht
      exact hstop hended
    · cases ht
      exact hstop hended
    · rw [DryPass.loopAm, ← hli, if_neg (by omega), if_neg (by omega), if_neg (by omega), if_pos (by omega)] at hd
      split_ifs at hd with hmany
      · have hlast : nbSdus = rlcAmMaxSduInPdu - 1 := Nat.le_antisymm hfew hmany
        exact absurd (hnum.trans hlast) hlimit
      by_cases hnow : (s.endSdu.inputSdus i).memBlock = none
      · exact hstop hnow
      obtain ⟨-, hremaining, -⟩ := addSdu_fields testNumLi (s.inputSdus s.currentSduIndex) f
      have hcounts := addSdu_counts testNumLi (s.inputSdus s.currentSduIndex) f
      refine List.mem_cons_of_mem _ (ih hkept ht hd ?_ ?_ ?_ ?_ ?_)
      · rw [hremaining, DryPass.addLi, hli]
        exact Nat.sub_le_sub_right hroom _
      · exact hcounts.1.trans (congrArg (· ^^^ 3) hli)
      · exact hcounts.2.trans (congrArg (· + 1) hnum)
      · have hbelow : nbSdus < rlcAmMaxSduInPdu - 1 := Nat.not_le.mp hmany
        exact hbelow
      · exact Option.ne_none_iff_isSome.mp hnow
    · cases ht
      exact hstop hended

end AmTransmitter

end EdgeSlice.Rlc
