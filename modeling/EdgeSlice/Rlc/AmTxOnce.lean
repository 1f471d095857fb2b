import EdgeSlice.Rlc.AmTxReferences

namespace EdgeSlice.Rlc

open Function

/-- All references of a PDU to SDUs, also where `nb_sdus` has wrapped around. -/
def AmTxPdu.unwrapped (p : AmTxPdu) : AmTxPdu := { p with nbSdus := p.sdusIndex.length }

theorem AmTxPdu.listed_unwrapped (p : AmTxPdu) : p.unwrapped.listed = p.sdusIndex := by
  simp [listed, unwrapped]

theorem AmTxPdu.transmitted_of_accepted {p q : AmTxPdu} {again increment : Bool} {soStart soEnd size : ℕ}
    (h : p.takeNack again soStart soEnd = .accepted q increment size) : q.transmitted = p.transmitted := by
  simp only [takeNack] at h
  generalize (if soEnd = rlcAmStatusPduSoEndAllBytes then p.payloadSize - 1 else soEnd) = stop at h
  repeat' split at h
  all_goals cases h
  all_goals rfl

namespace AmTransmitter

variable {s t u : AmTransmitter} {w : List (ℕ × Bytes)} {L : List ℕ} {accepted : List AmDataReq}
  {info : ControlPduInfo} {a d e m n sn fuel ackSn soStop max now : ℕ} {block : ℕ → UInt8} {pdu : Option Bytes}

/-- All references of the PDUs that have not been acknowledged in sequence. -/
def allRefs (s : AmTransmitter) : List ℕ :=
  refsRange (fun i ↦ (s.txDataPduBuffer i).unwrapped) s.vtA 0 (s.offset s.vtS)

theorem mem_allRefs {i : ℕ} : i ∈ s.allRefs ↔ ∃ d < s.offset s.vtS, i ∈ (s.pduOf (snAt s.vtA d)).sdusIndex := by
  simp [allRefs, refsRange, AmTxPdu.listed_unwrapped, pduOf]

/-- Each accepted SDU has been confirmed, or its slot waits for it, and it waits exactly as long as it is not fully
segmented or a PDU that lists it has not been acknowledged in sequence. -/
structure ConfirmedOnce (accepted : List AmDataReq) (s : AmTransmitter) : Prop where
  once : ∀ mui, s.dataConf.count mui + (unconfirmed mui s.inputSdus).card = (accepted.map AmDataReq.mui).count mui
  occupied_iff : ∀ i, 0 < (s.inputSdus i).sduSize ↔ (s.inputSdus i).memBlock.isSome ∨
    ∃ d < s.offset s.vtS, i ∈ (s.pduOf (snAt s.vtA d)).sdusIndex

/-- A report that moves VT(A) confirms the SDUs of the PDUs that it passes: its first NACK is for a PDU in
transmission of which an earlier report has NACKed a part that does not begin at its first byte, and the PDUs
before it list less than 128 SDUs. -/
def ConfirmsPassed (info : ControlPduInfo) (s : AmTransmitter) : Prop :=
  (info.nackList = [] → info.ackSn = s.vtA) ∧
    ∀ n ∈ info.nackList.head?, n.nackSn = s.vtA ∨ s.offset n.nackSn ≤ s.offset info.ackSn ∧
      (s.pduOf n.nackSn).transmitted ∧ (s.pduOf n.nackSn).sn = n.nackSn ∧ (s.pduOf n.nackSn).nackSoStart ≠ 0 ∧
      (s.pduOf n.nackSn).retxPayloadSize ≠ (s.pduOf n.nackSn).payloadSize ∧
      ∀ d < s.offset n.nackSn, (s.pduOf (snAt s.vtA d)).sdusIndex.length < 128

instance (info : ControlPduInfo) (s : AmTransmitter) : Decidable (s.ConfirmsPassed info) :=
  inferInstanceAs (Decidable (_ ∧ _))

/-- A report within the window confirms what it passes. -/
def PassesConfirmed (s : AmTransmitter) : AmTxEvent → Prop
  | .status info => s.offset info.ackSn ≤ s.offset s.vtS → s.ConfirmsPassed info
  | _ => True

/-- What the steps have to meet. -/
def Confirming (r : AmTransmitter × List AmDataReq) (x : AmTxEvent) : Prop :=
  TakesFreeSlot r x ∧ r.1.PassesConfirmed x

instance (r : AmTransmitter × List AmDataReq) : (x : AmTxEvent) → Decidable (Confirming r x)
  | .dataReq _ => inferInstanceAs (Decidable ((_ → _) ∧ True))
  | .getPdus _ _ _ => inferInstanceAs (Decidable (True ∧ True))
  | .status _ => inferInstanceAs (Decidable (True ∧ (_ → _)))
  | .timer _ => inferInstanceAs (Decidable (True ∧ True))

/-- What the transmitter keeps so that each SDU is confirmed once. -/
structure OnceKept (accepted : List AmDataReq) (s : AmTransmitter) : Prop where
  kept : ∃ w, TxKept w s
  referred : ∃ w, Referred s.allRefs w s
  nbSdus_eq : ∀ i, (s.txDataPduBuffer i).nbSdus = int8 (s.txDataPduBuffer i).sdusIndex.length
  once : ∀ mui, s.accounted mui = (accepted.map AmDataReq.mui).count mui

theorem OnceKept.confirmedOnce (h : OnceKept accepted s) : s.ConfirmedOnce accepted where
  once := h.once
  occupied_iff i := by
    obtain ⟨w, hreferred⟩ := h.referred
    rw [← mem_allRefs]
    refine ⟨fun hpos ↦ ?_, fun hor ↦ ?_⟩
    · rcases hmem : (s.inputSdus i).memBlock with _ | data
      · exact .inr (hreferred.pending i hpos hmem)
      · exact .inl rfl
    · rcases hor with hmem | hmem
      · exact (hreferred.slots i).size_pos hmem
      · exact hreferred.size_pos hmem

theorem accounted_start (pollPdu pollByte msDuration mui : ℕ) :
    (start pollPdu pollByte msDuration).accounted mui = 0 := by
  have hnone : unconfirmed mui (start pollPdu pollByte msDuration).inputSdus = ∅ :=
    Finset.filter_false_of_mem fun i _ h ↦ Nat.lt_irrefl 0 h.1
  have hconf : (start pollPdu pollByte msDuration).dataConf = [] := rfl
  rw [accounted, hnone, hconf, Finset.card_empty, List.count_nil]

theorem OnceKept.start (pollPdu pollByte msDuration : ℕ) : OnceKept [] (start pollPdu pollByte msDuration) where
  kept := ⟨[], .start _ _ _⟩
  referred := by
    rw [allRefs, start_offset]
    exact ⟨[], .init _ _ _⟩
  nbSdus_eq _ := by
    have hzero : int8 ((0 : ℕ) : ℤ) = 0 := by decide
    exact hzero.symm
  once mui := accounted_start _ _ _ mui

section Pdus

theorem OnlyPdus.allRefs_eq (h : s.OnlyPdus t) : t.allRefs = s.allRefs := by
  rw [allRefs, allRefs, offset, offset, h.vtA_eq, h.vtS_eq]
  refine refsRange_congr fun k _ _ ↦ ?_
  rw [AmTxPdu.listed_unwrapped, AmTxPdu.listed_unwrapped, (h.pdus _).sdusIndex_eq]

theorem OnlyPdus.referred (h : s.OnlyPdus t) (hs : Referred L w s) : Referred L w t where
  toSdusKept := h.sdusKept hs.toSdusKept
  refs_eq := by
    rw [h.inputSdus_eq]
    exact hs.refs_eq
  pending := by
    rw [h.inputSdus_eq]
    exact hs.pending

theorem OnlyPdus.onceKept (h : s.OnlyPdus t) (hs : OnceKept accepted s) : OnceKept accepted t where
  kept := hs.kept.imp fun _ ↦ h.kept
  referred := by
    rw [h.allRefs_eq]
    exact hs.referred.imp fun _ ↦ h.referred
  nbSdus_eq i := by
    rw [(h.pdus i).nbSdus_eq, (h.pdus i).sdusIndex_eq]
    exact hs.nbSdus_eq i
  once mui := by
    rw [accounted, h.dataConf_eq, h.inputSdus_eq]
    exact hs.once mui

/-- An SDU is accepted. -/
theorem OnceKept.dataReq (req : AmDataReq) (h : OnceKept accepted s) (haccepts : s.Accepts)
    (hfree : (s.inputSdus s.nextSduIndex).sduSize = 0) : OnceKept (accepted ++ [req]) (s.dataReq req) := by
  obtain ⟨w, hkept⟩ := h.kept
  obtain ⟨w', hold⟩ := h.referred
  obtain ⟨hreferred, haccounted⟩ := hold.dataReq req
    (Option.isNone_iff_eq_none.mp haccepts.1) haccepts.2 hfree
  have hsame : (s.dataReq req).allRefs = s.allRefs ∧ (s.dataReq req).txDataPduBuffer = s.txDataPduBuffer := by
    rw [AmTransmitter.dataReq]
    split_ifs <;> exact ⟨rfl, rfl⟩
  refine ⟨⟨_, hkept.dataReq haccepts hfree⟩, ?_, ?_, fun mui ↦ ?_⟩
  · rw [hsame.1]
    exact ⟨_, hreferred⟩
  · rw [hsame.2]
    exact h.nbSdus_eq
  · rw [haccounted, h.once, List.map_append, List.count_append, List.map_singleton, List.count_singleton]
    simp only [beq_iff_eq]

/-- The new PDU takes over the references to the SDUs that it lists. -/
theorem sendPdu_refs {fiFirst : Bool} {size payload : ℕ} {sdusIndex : List ℕ} {f : AmFilling} {bytes : Bytes}
    (h : s.WindowKept) (hroom : s.offset s.vtS < 512)
    (ht : s.sendPdu now fiFirst size sdusIndex f payload = some (t, bytes)) :
    t.allRefs = s.allRefs ++ sdusIndex ∧ t.inputSdus = s.inputSdus ∧ t.dataConf = s.dataConf ∧
      ∃ p : AmTxPdu, p.nbSdus = int8 p.sdusIndex.length ∧
        t.txDataPduBuffer = update s.txDataPduBuffer (s.vtS % rlcAmWindowSize) p := by
  rw [sendPdu] at ht
  dsimp only at ht
  split_ifs at ht with hsize
  cases ht
  have hpoll := pduPolling_only now f.payloadSize true
    { s with sduBufferOccupancy := f.bufferOccupancy, vtS := amNextSn s.vtS }
  have hbuffer := pduPolling_buffer now f.payloadSize true
    { s with sduBufferOccupancy := f.bufferOccupancy, vtS := amNextSn s.vtS }
  generalize (pduPolling now f.payloadSize true
    { s with sduBufferOccupancy := f.bufferOccupancy, vtS := amNextSn s.vtS }).1 = v at hpoll hbuffer ⊢
  generalize hp : (AmTxPdu.mk _ _ _ _ _ _ _ _ _ _ _ _ _ _ _ _ _ _ _) = p
  have hindex : p.sdusIndex = sdusIndex := by rw [← hp]
  have hnb : p.nbSdus = int8 p.sdusIndex.length := by rw [← hp]
  have hwritten : (v.setPdu s.vtS p).txDataPduBuffer = update s.txDataPduBuffer (s.vtS % rlcAmWindowSize) p :=
    congrArg (update · _ _) hbuffer
  have hvtA : (v.setPdu s.vtS p).vtA = s.vtA := hpoll.vtA_eq
  have hvtS : (v.setPdu s.vtS p).vtS = amNextSn s.vtS := hpoll.vtS_eq
  have hlast : snAt s.vtA (s.offset s.vtS) = s.vtS := snAt_offset h.vtA_lt h.vtS_lt
  have hoffset : (v.setPdu s.vtS p).offset (v.setPdu s.vtS p).vtS = s.offset s.vtS + 1 := by
    rw [offset, hvtA, hvtS, ← hlast, amNextSn_snAt, hlast]
    exact amDiffSn_snAt h.vtA_lt (by omega)
  refine ⟨?_, hpoll.inputSdus_eq, hpoll.dataConf_eq, p, hnb, hwritten⟩
  rw [allRefs, hoffset, hvtA, hwritten, refsRange_add, allRefs]
  refine congrArg₂ _ (refsRange_congr fun k _ hk ↦ ?_) ?_
  · have hne := slot_ne s.vtA (show k < s.offset s.vtS by omega) (by omega)
    rw [hlast] at hne
    rw [update_of_ne hne]
  · have hone : refsRange (fun i ↦ (update s.txDataPduBuffer (s.vtS % rlcAmWindowSize) p i).unwrapped) s.vtA
        (0 + s.offset s.vtS) 1 =
        (update s.txDataPduBuffer (s.vtS % rlcAmWindowSize) p
          (snAt s.vtA (0 + s.offset s.vtS) % rlcAmWindowSize)).unwrapped.listed ++ [] := rfl
    rw [hone, Nat.zero_add, hlast, update_self, AmTxPdu.listed_unwrapped, hindex, List.append_nil]

theorem dryPass_loop (s : AmTransmitter) : ∃ d, DryPass.loopAm
    (s.queue.map fun i ↦ (s.inputSdus i).sduRemainingSize) 0 (.startAm s.dataPduSize) = (d, s.dryPass.2) := by
  rw [dryPass]
  rcases DryPass.loopAm (s.queue.map fun i ↦ (s.inputSdus i).sduRemainingSize) 0 (.startAm s.dataPduSize) with ⟨d, n⟩
  exact ⟨d, rfl⟩

theorem dryPass_room (s : AmTransmitter) :
    s.dryPass.1.pduRemainingSize ≤ (DryPass.startAm s.dataPduSize).testPduRemainingSize := by
  have hloop := DryPass.loopAm_le (s.queue.map fun i ↦ (s.inputSdus i).sduRemainingSize) 0 (.startAm s.dataPduSize)
  refine le_trans ?_ hloop
  rw [dryPass]
  dsimp only
  rw [DryPass.dropLi]
  split_ifs
  · exact Nat.sub_le _ _
  · exact le_rfl

/-- A PDU is built. -/
theorem OnceKept.segment10 (h : OnceKept accepted s) (hroom : s.offset s.vtS < 512)
    (ht : s.segment10 now block = some (t, pdu)) : OnceKept accepted t := by
  obtain ⟨w, hkept⟩ := h.kept
  obtain ⟨w', hreferred⟩ := h.referred
  obtain ⟨-, x, -, hkept'⟩ := hkept.segment10 hroom ht
  rw [AmTransmitter.segment10] at ht
  dsimp only at ht
  split_ifs at ht with hempty
  · cases ht
    exact h
  simp only [Option.bind_eq_bind, Option.bind_eq_some_iff] at ht
  obtain ⟨u, hu, ⟨f, v⟩, hv, ⟨y, bytes⟩, hy, ht⟩ := ht
  cases ht
  have hmem (i : ℕ) (hi : i ∈ s.queue.take s.dryPass.2) := mem_queue (List.mem_of_mem_take hi)
  obtain ⟨hlisted, haccounted⟩ := hreferred.listSdus hmem hu
  obtain ⟨-, hremaining, honly⟩ := hkept.sdus.listSdus hmem hu
  obtain ⟨-, w'', -, hfilled, -, honly', -⟩ :=
    hlisted.toSdusKept.fillLoop (hkept.occupancy.trans hremaining.symm) hv
  obtain ⟨hqueue, hsizes⟩ := listSdus_queue hu
  have hended (i : ℕ) (hsome : (u.inputSdus i).memBlock.isSome) (hnone : (v.inputSdus i).memBlock = none) :
      i ∈ s.allRefs ++ s.queue.take s.dryPass.2 := by
    obtain ⟨d, hdry⟩ := s.dryPass_loop
    rw [← hsizes] at hdry
    have hstart (n m k : ℕ) : (startFilling block n m k).pduRemainingSize = m := rfl
    have hin := hlisted.toSdusKept.fillLoop_listed hv hdry ((hstart _ _ _).le.trans s.dryPass_room) rfl rfl
      (Nat.zero_le _) hsome hnone
    rw [hqueue, Nat.sub_zero] at hin
    exact List.mem_append_right _ hin
  obtain ⟨hfilled', haccounted'⟩ := hlisted.fillLoop hv hfilled hended
  have hboth := honly.trans honly'
  have hoffset : v.offset v.vtS = s.offset s.vtS := by
    obtain ⟨_, _, _, _, _, rfl⟩ := hboth
    rfl
  have hrefs : v.allRefs = s.allRefs := by
    obtain ⟨_, _, _, _, _, rfl⟩ := hboth
    rfl
  obtain ⟨hnew, hsdus, hconf, p, hp, hbuffer⟩ := sendPdu_refs (hboth.windowKept hkept.window) (hoffset ▸ hroom) hy
  dsimp only at hnew hsdus hconf hbuffer hkept' ⊢
  have hbuffer' : y.txDataPduBuffer = update s.txDataPduBuffer (v.vtS % rlcAmWindowSize) p := by
    rw [hbuffer, hboth.txDataPduBuffer_eq]
  have hall := hfilled'.refs_eq
  have hpending := hfilled'.pending
  rw [← hsdus, ← hrefs, ← hnew] at hall hpending
  refine ⟨⟨x, hkept'⟩, ⟨x, { hkept'.sdus with refs := fun i ↦ (hall i).le }, hall, hpending⟩, fun i ↦ ?_, fun mui ↦ ?_⟩
  · rw [hbuffer']
    rcases eq_or_ne i (v.vtS % rlcAmWindowSize) with rfl | hne
    · rw [update_self]
      exact hp
    · rw [update_of_ne hne]
      exact h.nbSdus_eq i
  · rw [accounted, hsdus, hconf]
    exact ((haccounted' mui).trans (haccounted mui)).trans (h.once mui)

end Pdus

section Reports

theorem ackRange_pduOf {free : Bool} (h : s.ackRange free a n d = some t) (hde : d + n ≤ e) (hed : e < d + 512) :
    t.pduOf (snAt a e) = s.pduOf (snAt a e) := by
  induction n generalizing d s with
  | zero =>
    obtain rfl := Option.some.inj h
    rfl
  | succ n ih =>
    rw [ackRange, Option.bind_eq_bind, Option.bind_eq_some_iff] at h
    obtain ⟨u, hack, hrange⟩ := h
    have hne := slot_ne a (show d < e by omega) (by omega)
    refine (ih hrange (by omega) (by omega)).trans ?_
    exact (ackPdu_frame_of_eq hack).pduOf_eq fun hmem ↦ hne (Set.mem_singleton_iff.mp hmem).symm

theorem nackPdu_transmitted {cursor prevNackSn soStart soEnd : ℕ} {status : Bool}
    (h : s.nackPdu cursor prevNackSn soStart soEnd = some (t, status)) (i : ℕ) :
    (t.txDataPduBuffer i).transmitted = (s.txDataPduBuffer i).transmitted := by
  rw [nackPdu] at h
  split at h
  · cases h
  · cases h
    rfl
  · next p increment size htake =>
    cases h
    have hp : p.transmitted = (s.pduOf cursor).transmitted := AmTxPdu.transmitted_of_accepted htake
    have hq : (p.schedule (prevNackSn = cursor) increment size).1.transmitted = p.transmitted := by
      simp only [AmTxPdu.schedule]
      split_ifs <;> rfl
    rcases eq_or_ne i (cursor % rlcAmWindowSize) with rfl | hne
    · exact (congrArg AmTxPdu.transmitted (update_self _ _ _)).trans (hq.trans hp)
    · exact congrArg AmTxPdu.transmitted (update_of_ne hne _ _)

/-- From the first NACK_SN on no PDU before ACK_SN is taken for the first one. -/
theorem nackLoop_transmitted {cursor nackSn prevNackSn : ℕ} {nacks : List Nack} {status : Bool} (hd : cursor = snAt a d)
    (hmd : m < d ∨ m = d ∧ nackSn = cursor) (hde : d ≤ e) (he : e ≤ 512) (hack : ackSn = snAt a e)
    (h : s.nackLoop ackSn fuel cursor nackSn prevNackSn nacks = some (t, status)) :
    (t.pduOf (snAt a m)).transmitted = (s.pduOf (snAt a m)).transmitted := by
  induction fuel generalizing s d cursor nackSn prevNackSn nacks with
  | zero => cases h
  | succ fuel ih =>
    rw [nackLoop] at h
    by_cases hend : cursor = ackSn
    · rw [if_neg (not_not_intro hend)] at h
      cases h
      rfl
    have hlt : d < e := by
      refine hde.lt_of_ne fun heq ↦ hend ?_
      rw [hd, hack, heq]
    have hnext : (cursor + 1) &&& 0x3FF = snAt a (d + 1) := by rw [hd, mask_succ_snAt]
    rw [if_pos hend] at h
    by_cases hcursor : cursor = nackSn
    · rw [if_neg (not_not_intro hcursor), Option.bind_eq_bind, Option.bind_eq_some_iff] at h
      obtain ⟨⟨u, taken⟩, hnack, hrest⟩ := h
      have hfirst := nackPdu_transmitted hnack (snAt a m % rlcAmWindowSize)
      -- The cursor stays for one more NACK of the same PDU.
      have hstay (sn : ℕ) (nacks : List Nack) (hloop : u.nackLoop ackSn fuel
          (if nackSn ≠ sn then (cursor + 1) &&& 0x3FF else cursor) sn nackSn nacks = some (t, status)) :
          (t.pduOf (snAt a m)).transmitted = (s.pduOf (snAt a m)).transmitted := by
        refine Eq.trans ?_ hfirst
        split_ifs at hloop with hsame
        · exact ih hnext (.inl (by omega)) hlt hloop
        · exact ih hd (hmd.imp_right fun h ↦ ⟨h.1, (not_not.mp hsame).symm.trans hcursor.symm⟩) hde hloop
      dsimp only at hrest
      split at hrest
      · cases hrest
        exact hfirst
      · split at hrest
        · exact hstay _ _ hrest
        · split at hrest
          · exact (ih hnext (.inl (by omega)) hlt hrest).trans hfirst
          · cases hrest
            exact hfirst
    · rw [if_pos hcursor, Option.bind_eq_bind, Option.bind_eq_some_iff] at h
      obtain ⟨u, hu, hrest⟩ := h
      have hmd' : m < d := hmd.resolve_right fun h ↦ hcursor h.2.symm
      have hne := slot_ne a hmd' (by omega)
      have hfirst : (u.pduOf (snAt a m)).transmitted = (s.pduOf (snAt a m)).transmitted := by
        rw [hd] at hu
        exact congrArg AmTxPdu.transmitted
          ((ackPdu_frame_of_eq hu).pduOf_eq fun hmem ↦ hne (Set.mem_singleton_iff.mp hmem))
      refine Eq.trans ?_ hfirst
      split_ifs at hrest
      · exact ih hnext (.inl (by omega)) hlt hrest
      · exact ih hd (.inl hmd') hde hrest

/-- A PDU in transmission is in the window. -/
theorem WindowKept.lt_of_transmitted (h : s.WindowKept) (hlt : sn < 1024) (htx : (s.pduOf sn).transmitted = true)
    (hsn : (s.pduOf sn).sn = sn) : s.offset sn < s.offset s.vtS ∧ s.offset sn < 512 := by
  have hle := h.le
  have hself : snAt s.vtA (s.offset sn) = sn := snAt_offset h.vtA_lt hlt
  have hbound := s.offset_lt sn
  rcases Nat.lt_or_ge (s.offset sn) 512 with hin | hout
  · refine ⟨Nat.lt_of_not_le fun hbehind ↦ ?_, hin⟩
    have hreleased := (h.stale _ hbehind hin).2
    rw [hself, htx] at hreleased
    cases hreleased
  · exfalso
    have hslot : s.pduOf sn = s.pduOf (snAt s.vtA (s.offset sn - 512)) := by
      have hsame := snAt_slot s.vtA (s.offset sn - 512)
      rw [Nat.sub_add_cancel hout, hself] at hsame
      exact congrArg s.txDataPduBuffer hsame
    rcases Nat.lt_or_ge (s.offset sn - 512) (s.offset s.vtS) with hin | hbehind
    · have heq : snAt s.vtA (s.offset sn) = snAt s.vtA (s.offset sn - 512) := by
        rw [hself, ← h.sn_eq _ hin, ← hslot, hsn]
      exact snAt_ne h.vtA_lt hbound (by omega) (by omega) heq
    · have hreleased := (h.stale _ hbehind (by omega)).2
      rw [← hslot, htx] at hreleased
      cases hreleased

/-- The SDUs of some PDUs are confirmed, one PDU after another. -/
theorem Referred.confirmUpTo (ha : a < 1024) (hde : d ≤ e) (he : e < 1024)
    (hlisted : ∀ k < e, (s.pduOf (snAt a k)).listed = (s.pduOf (snAt a k)).sdusIndex)
    (h : Referred (refsRange (fun i ↦ (s.txDataPduBuffer i).unwrapped) a d (e - d) ++ L) w s)
    (ht : s.confirmUpTo (snAt a e) fuel (snAt a d) = some t) :
    Referred L w t ∧ (∀ mui, t.accounted mui = s.accounted mui) ∧ s.OnlySdus t := by
  induction fuel generalizing s d with
  | zero => cases ht
  | succ fuel ih =>
    rw [AmTransmitter.confirmUpTo] at ht
    rcases hde.eq_or_lt with rfl | hlt
    · rw [if_neg fun hne ↦ hne rfl] at ht
      cases ht
      rw [Nat.sub_self] at h
      exact ⟨h, fun _ ↦ rfl, .refl _⟩
    · rw [if_pos (snAt_ne ha (by omega) he hlt.ne), Option.bind_eq_bind, Option.bind_eq_some_iff] at ht
      obtain ⟨u, hu, ht⟩ := ht
      have hsplit : refsRange (fun i ↦ (s.txDataPduBuffer i).unwrapped) a d (e - d) =
          (s.pduOf (snAt a d)).listed ++
            refsRange (fun i ↦ (s.txDataPduBuffer i).unwrapped) a (d + 1) (e - (d + 1)) := by
        rw [show e - d = 1 + (e - (d + 1)) by omega, refsRange_add, hlisted d hlt, ← AmTxPdu.listed_unwrapped]
        exact congrArg (· ++ _) (List.append_nil _)
      rw [hsplit, List.append_assoc] at h
      have honly := (h.toSdusKept.confirmSegments hu).only
      obtain ⟨hfirst, haccounted⟩ := h.confirmSegments hu
      rw [amNextSn_snAt] at ht
      rw [← honly.txDataPduBuffer_eq] at hfirst
      have hlisted' (k : ℕ) (hk : k < e) : (u.pduOf (snAt a k)).listed = (u.pduOf (snAt a k)).sdusIndex := by
        rw [honly.pduOf_eq]
        exact hlisted k hk
      obtain ⟨hrest, haccounted', honly'⟩ := ih hlt hlisted' hfirst ht
      exact ⟨hrest, fun mui ↦ (haccounted' mui).trans (haccounted mui), honly.trans honly'⟩

theorem listed_eq {p : AmTxPdu} (hnb : p.nbSdus = int8 p.sdusIndex.length) (hfew : p.sdusIndex.length < 128) :
    p.listed = p.sdusIndex := by
  have hsmall : int8 (p.sdusIndex.length : ℤ) = p.sdusIndex.length := by
    rw [int8]
    omega
  rw [AmTxPdu.listed, hnb, hsmall, Int.toNat_natCast, List.take_length]

/-- What the code may take for the last PDU whose SDUs are confirmed, so that the SDUs of all PDUs before VT(A) are:
nothing if VT(A) stays, else the first PDU that is not passed. -/
def PassesTo (m sn soStop : ℕ) (s : AmTransmitter) : Prop :=
  m = 0 ∧ sn = amPrevSn (snAt s.vtA m) ∨ sn = snAt s.vtA m ∧ soStop ≠ 0x7FFF ∧
    (0 < m → (s.pduOf sn).transmitted = true ∧ (s.pduOf sn).sn = sn)

theorem OnceKept.confirmSdus (h : OnceKept accepted s) (hm : m ≤ s.offset s.vtS)
    (hfew : ∀ d < m, (s.pduOf (snAt s.vtA d)).sdusIndex.length < 128) (hpasses : s.PassesTo m sn soStop)
    (ht : s.confirmSdus sn soStop = some t) :
    (∃ w, Referred (refsRange (fun i ↦ (s.txDataPduBuffer i).unwrapped) (snAt s.vtA m) 0 (s.offset s.vtS - m)) w t) ∧
      (∀ mui, t.accounted mui = s.accounted mui) ∧ s.OnlySdus t := by
  obtain ⟨v, hkept⟩ := h.kept
  obtain ⟨w, hreferred⟩ := h.referred
  have hle := hkept.window.le
  have hloop : s.confirmUpTo (snAt s.vtA m) 1025 (snAt s.vtA 0) = some t := by
    rw [AmTransmitter.confirmSdus] at ht
    change (if (s.pduOf sn).transmitted = true ∧ (s.pduOf sn).sn = sn then _ else _) = _ at ht
    rcases hpasses with ⟨rfl, rfl⟩ | ⟨rfl, hso, hguard⟩
    · rw [if_neg (hkept.window.not_transmitted fun _ hd ↦ absurd hd (Nat.not_lt_zero _))] at ht
      rw [AmTransmitter.confirmUpTo, if_neg fun hne ↦ hne rfl]
      exact ht
    · by_cases hsent : (s.pduOf (snAt s.vtA m)).transmitted = true ∧ (s.pduOf (snAt s.vtA m)).sn = snAt s.vtA m
      · rw [if_pos hsent, Option.bind_eq_bind, Option.bind_eq_some_iff] at ht
        obtain ⟨u, hu, ht⟩ := ht
        rw [if_neg hso] at ht
        cases ht
        rw [snAt_zero hkept.window.vtA_lt]
        exact hu
      · obtain rfl : m = 0 := Nat.eq_zero_of_not_pos fun hpos ↦ hsent (hguard hpos)
        rw [if_neg hsent] at ht
        rw [AmTransmitter.confirmUpTo, if_neg fun hne ↦ hne rfl]
        exact ht
  have hsplit : s.allRefs = refsRange (fun i ↦ (s.txDataPduBuffer i).unwrapped) s.vtA 0 (m - 0) ++
      refsRange (fun i ↦ (s.txDataPduBuffer i).unwrapped) (snAt s.vtA m) 0 (s.offset s.vtS - m) := by
    rw [allRefs, show s.offset s.vtS = m + (s.offset s.vtS - m) by omega, refsRange_add, Nat.zero_add,
      Nat.add_sub_cancel_left, refsRange_shift, Nat.add_zero, Nat.sub_zero]
  rw [hsplit] at hreferred
  have hlisted (k : ℕ) (hk : k < m) : (s.pduOf (snAt s.vtA k)).listed = (s.pduOf (snAt s.vtA k)).sdusIndex :=
    listed_eq (h.nbSdus_eq _) (hfew k hk)
  obtain ⟨hrest, haccounted, honly⟩ :=
    hreferred.confirmUpTo hkept.window.vtA_lt (Nat.zero_le m) (by omega) hlisted hloop
  exact ⟨⟨w, hrest⟩, haccounted, honly⟩

theorem stopPoll_buffer (ackSn : ℕ) (s : AmTransmitter) : (s.stopPoll ackSn).txDataPduBuffer = s.txDataPduBuffer := by
  rw [stopPoll]
  split_ifs <;> rfl

/-- The end of an accepted report. -/
theorem OnceKept.acceptStatus (h : OnceKept accepted s) (hkept : TxKept w t) (hm : m ≤ s.offset s.vtS)
    (hfew : ∀ d < m, (s.pduOf (snAt s.vtA d)).sdusIndex.length < 128) (hpasses : s.PassesTo m sn soStop)
    (ht : s.acceptStatus ackSn (snAt s.vtA m) sn soStop = some t) : OnceKept accepted t := by
  have hstop := stopPoll_only ackSn s
  have hbuffer := stopPoll_buffer ackSn s
  rw [AmTransmitter.acceptStatus, Option.bind_eq_bind, Option.bind_eq_some_iff] at ht
  obtain ⟨u, hu, ht⟩ := ht
  generalize s.stopPoll ackSn = v at hu hstop hbuffer
  have hkept' := hstop.onceKept h
  have hvtA : v.vtA = s.vtA := hstop.vtA_eq
  have hoffset : v.offset v.vtS = s.offset s.vtS := by rw [offset, offset, hvtA, hstop.vtS_eq]
  have hpdu (sn : ℕ) : v.pduOf sn = s.pduOf sn := congrFun hbuffer _
  have hpasses' : v.PassesTo m sn soStop := by
    rw [PassesTo, hvtA, hpdu]
    exact hpasses
  have hfew' (d : ℕ) (hd : d < m) : (v.pduOf (snAt v.vtA d)).sdusIndex.length < 128 := by
    rw [hvtA, hpdu]
    exact hfew d hd
  obtain ⟨x, hwindow⟩ := hkept'.kept
  have hle := hwindow.window.le
  have hvtS : snAt v.vtA (v.offset v.vtS) = v.vtS := snAt_offset hwindow.window.vtA_lt hwindow.window.vtS_lt
  obtain ⟨⟨w', hreferred⟩, haccounted, honly⟩ := hkept'.confirmSdus (hoffset ▸ hm) hfew' hpasses' hu
  have hnew : amDiffSn v.vtS (snAt s.vtA m) = v.offset v.vtS - m := by
    rw [← hvtS, ← hvtA, amDiffSn_snAt_snAt (hoffset ▸ hm) (by omega), hvtS]
  have hrefs : t.allRefs =
      refsRange (fun i ↦ (v.txDataPduBuffer i).unwrapped) (snAt v.vtA m) 0 (v.offset v.vtS - m) := by
    cases ht
    rw [← hnew, hvtA]
    obtain ⟨_, _, _, _, _, rfl⟩ := honly
    rfl
  have hsdus : t.inputSdus = u.inputSdus ∧ t.dataConf = u.dataConf ∧ t.txDataPduBuffer = v.txDataPduBuffer := by
    cases ht
    exact ⟨rfl, rfl, honly.txDataPduBuffer_eq⟩
  have hall := hreferred.refs_eq
  have hpending := hreferred.pending
  rw [← hrefs, ← hsdus.1] at hall hpending
  refine ⟨⟨w, hkept⟩, ⟨w, { hkept.sdus with refs := fun i ↦ (hall i).le }, hall, hpending⟩, ?_, fun mui ↦ ?_⟩
  · rw [hsdus.2.2]
    exact hkept'.nbSdus_eq
  · rw [accounted, hsdus.1, hsdus.2.1]
    exact (haccounted mui).trans (hkept'.once mui)

/-- A report that confirms what it passes, or that does not move VT(A). -/
theorem OnceKept.receive (h : OnceKept accepted s)
    (hconfirms : s.offset info.ackSn ≤ s.offset s.vtS → s.ConfirmsPassed info)
    (ht : s.receiveProcessControlPdu (some info) = some t) : OnceKept accepted t := by
  obtain ⟨w, hw⟩ := h.kept
  have hkept := hw.receive ht
  have hvtA := hw.window.vtA_lt
  rw [receiveProcessControlPdu] at ht
  split_ifs at ht with hlong hwindow
  · have hconfirms := hconfirms hwindow
    rw [ConfirmsPassed] at hconfirms
    cases hnacks : info.nackList with
    | nil =>
      rw [hnacks] at ht hconfirms
      simp only [Option.bind_eq_bind, Option.bind_eq_some_iff] at ht
      obtain ⟨u, hu, ht⟩ := ht
      obtain ⟨honly, -⟩ := hw.window.ackUpTo info.ackSn_lt hu
      have hack : info.ackSn = snAt u.vtA 0 := by rw [honly.vtA_eq, snAt_zero hvtA, hconfirms.1 rfl]
      rw [hack] at ht
      exact (honly.onceKept h).acceptStatus hkept (Nat.zero_le _) (fun d hd ↦ absurd hd (Nat.not_lt_zero d))
        (.inl ⟨rfl, rfl⟩) ht
    | cons nack nacks =>
      rw [hnacks] at ht hconfirms
      simp only [Option.bind_eq_bind, Option.bind_eq_some_iff] at ht
      obtain ⟨u, hu, ⟨v, status⟩, hv, ht⟩ := ht
      obtain ⟨honly, hreleased⟩ := hw.window.ackUpTo nack.sn_lt hu
      have hloop := nackLoop_only hv
      have honce := hloop.onceKept (honly.onceKept h)
      have hvA : v.vtA = s.vtA := hloop.vtA_eq.trans honly.vtA_eq
      have hvS : v.vtS = s.vtS := hloop.vtS_eq.trans honly.vtS_eq
      cases status with
      | false =>
        cases ht
        exact honce
      | true =>
        rw [if_pos rfl] at ht
        rcases hconfirms.2 nack rfl with hfirst | ⟨hle, htx, hsn, hso, hretx, hfew⟩
        · have hnack : nack.nackSn = snAt v.vtA 0 := by rw [hvA, snAt_zero hvtA, hfirst]
          have hcnf := (honly.kept hw).window.lastConfirmed nack.nackSn
          generalize u.lastConfirmed nack.nackSn = cnf at ht hcnf
          rw [hnack] at ht hcnf
          refine honce.acceptStatus hkept (Nat.zero_le _) (fun d hd ↦ absurd hd (Nat.not_lt_zero d)) ?_ ht
          exact hcnf.imp (fun hprev ↦ ⟨rfl, hprev⟩) fun hsame ↦ ⟨hsame.1, hsame.2, fun h ↦ absurd h (Nat.lt_irrefl 0)⟩
        · obtain ⟨hlt, hsmall⟩ := hw.window.lt_of_transmitted nack.sn_lt htx hsn
          have hwle := hw.window.le
          have hself : snAt s.vtA (s.offset nack.nackSn) = nack.nackSn := snAt_offset hvtA nack.sn_lt
          have hack : info.ackSn = snAt s.vtA (s.offset info.ackSn) := (snAt_offset hvtA info.ackSn_lt).symm
          have hspan : s.offset info.ackSn ≤ 512 := hwindow.trans hwle
          have hu' : u.pduOf nack.nackSn = s.pduOf nack.nackSn := by
            have hsame := ackRange_pduOf (e := s.offset nack.nackSn) (hw.window.ackRange nack.sn_lt hu)
              (Nat.zero_add _).le (by omega)
            rwa [hself] at hsame
          have hbounded := (hw.window.bounded (nack.nackSn % rlcAmWindowSize)).nackSoStart_le.trans_lt
            (hw.window.bounded _).payloadSize_lt
          have hlast : u.lastConfirmed nack.nackSn = (nack.nackSn, (s.pduOf nack.nackSn).nackSoStart - 1) := by
            rw [← hu'] at hretx hso ⊢
            exact (if_neg hretx).trans (if_pos hso)
          have hsent := nackLoop_transmitted (a := s.vtA) (m := s.offset nack.nackSn) hself.symm (.inr ⟨rfl, rfl⟩) hle
            hspan hack hv
          rw [hself, hu'] at hsent
          have hnack : nack.nackSn = snAt v.vtA (s.offset nack.nackSn) := by rw [hvA, hself]
          have hoff : v.offset v.vtS = s.offset s.vtS := by rw [offset, offset, hvA, hvS]
          rw [hlast, hnack] at ht
          refine honce.acceptStatus hkept (by omega) (fun d hd ↦ ?_) (.inr ⟨rfl, ?_, fun _ ↦ ?_⟩) ht
          · have hindex : (v.pduOf (snAt s.vtA d)).sdusIndex = (s.pduOf (snAt s.vtA d)).sdusIndex :=
              (hloop.pdus _).sdusIndex_eq.trans (honly.pdus _).sdusIndex_eq
            rw [hvA, hindex]
            exact hfew d hd
          · have hsmall : (s.pduOf (snAt v.vtA (s.offset nack.nackSn))).nackSoStart < 9000 := by
              rw [← hnack]
              exact hbounded
            omega
          · rw [← hnack]
            exact ⟨hsent.trans htx, ((hloop.pdus _).sn_eq.trans (honly.pdus _).sn_eq).trans hsn⟩
  · cases ht
    exact h

end Reports

section Runs

theorem OnceKept.getPdus (h : OnceKept accepted s) (ht : s.getPdus max now block = some (t, pdu)) :
    OnceKept accepted t := by
  rw [AmTransmitter.getPdus] at ht
  simp only [Option.bind_eq_bind, Option.bind_eq_some_iff] at ht
  obtain ⟨⟨u, sent⟩, hu, ht⟩ := ht
  have honce := (getRetransmission_only hu).onceKept h
  obtain ⟨w, hkept⟩ := honce.kept
  dsimp only at ht
  split_ifs at ht with hsent hnew
  · cases ht
    exact honce
  · have hle := hkept.window.le
    have hvtS : snAt u.vtA (u.offset u.vtS) = u.vtS := snAt_offset hkept.window.vtA_lt hkept.window.vtS_lt
    have hne : u.offset u.vtS ≠ 512 := by
      intro heq
      rw [heq, ← hkept.window.vtMs_eq] at hvtS
      exact hnew.2.2 hvtS.symm
    exact honce.segment10 (by omega) ht
  · cases ht
    exact honce

theorem OnceKept.step {x : AmTxEvent} (h : OnceKept accepted s) (hgood : Confirming (s, accepted) x)
    (ht : step max x s = some t) : OnceKept (accept accepted s x) t := by
  cases x with
  | dataReq req =>
    cases ht
    by_cases haccepts : s.Accepts
    · have honce := h.dataReq req haccepts (hgood.1 haccepts)
      rwa [accept, if_pos haccepts]
    · have hsame : s.dataReq req = s := if_neg haccepts
      rwa [hsame, accept, if_neg haccepts]
  | getPdus now size block =>
    obtain ⟨⟨u, pdu⟩, hu, rfl⟩ := Option.map_eq_some_iff.mp ht
    have hgrant : s.OnlyPdus { s with nbBytesRequestedByMac := size } :=
      ⟨rfl, rfl, rfl, rfl, rfl, rfl, rfl, rfl, rfl, rfl, fun _ ↦ .refl _⟩
    exact (hgrant.onceKept h).getPdus hu
  | status info => exact h.receive hgood.2 ht
  | timer now => exact (checkTimerPollRetransmit_only ht).onceKept h

def twoBytes (mui : ℕ) : AmDataReq := ⟨mui, [0, 0], by decide, by decide⟩

/-- A NACK for the bytes of a PDU from one on. -/
def nackFrom (sn : Fin 1024) (soStart : Fin 32768) : Nack :=
  ⟨sn, true, true, soStart, 0x7FFF, sn.isLt, soStart.isLt, Nack.allBytes_lt⟩

def reportOf (ackSn : Fin 1024) (nackList : List Nack) : ControlPduInfo :=
  ⟨ackSn, !nackList.isEmpty, nackList, ackSn.isLt⟩

/-- The first of two PDUs is sent again, and acknowledged by a report that asks once more for a part of the second. -/
def confirmedRun : List AmTxEvent :=
  [.dataReq (oneByte 7), .getPdus 0 3 (fun _ ↦ 0), .dataReq (twoBytes 8), .getPdus 1 4 (fun _ ↦ 0),
    .status (reportOf 2 [nackFrom 0 0, nackFrom 1 1]), .getPdus 2 3 (fun _ ↦ 0), .status (reportOf 2 [nackFrom 1 1])]

/-- The only PDU is acknowledged. -/
def unconfirmedRun : List AmTxEvent :=
  [.dataReq (oneByte 7), .getPdus 0 3 (fun _ ↦ 0), .status (reportOf 1 [])]

end Runs

end AmTransmitter

end EdgeSlice.Rlc
