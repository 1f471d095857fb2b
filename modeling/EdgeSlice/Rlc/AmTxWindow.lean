import EdgeSlice.Rlc.AmTxPdus
import EdgeSlice.Rlc.AmTxSdus
import EdgeSlice.Rlc.AmVtASafety

namespace EdgeSlice.Rlc

/-- One more PDU with a segment of the SDU is confirmed. -/
def AmTxSdu.confirm (sdu : AmTxSdu) : AmTxSdu := { sdu with nbPdusAck := sdu.nbPdusAck + 1 }

/-- The references to SDUs that are confirmed with a PDU. -/
def AmTxPdu.listed (p : AmTxPdu) : List ℕ := p.sdusIndex.take p.nbSdus.toNat

namespace AmTransmitter

open Function

variable {s t u : AmTransmitter} {L L' refs : List ℕ} {w : List (ℕ × Bytes)} {a d e index sn fuel : ℕ}

/-- What the confirmation of SDUs keeps. -/
structure Confirms (L : List ℕ) (w : List (ℕ × Bytes)) (s t : AmTransmitter) : Prop where
  kept : SdusKept L w t
  remaining_eq : remaining t.inputSdus = remaining s.inputSdus
  only : s.OnlySdus t

theorem Confirms.refl (h : SdusKept L w s) : Confirms L w s s := ⟨h, rfl, .refl s⟩

theorem Confirms.trans (h : Confirms L w s t) (h' : Confirms L' w t u) : Confirms L' w s u :=
  ⟨h'.kept, h'.remaining_eq.trans h.remaining_eq, h.only.trans h'.only⟩

/-- The loop passes over SDUs that have been confirmed. -/
theorem SdusKept.skipTransmitted (h : SdusKept L w s) (ht : s.skipTransmitted fuel = some t) :
    Confirms L w s t := by
  induction fuel generalizing s with
  | zero => cases ht
  | succ fuel ih =>
    rw [AmTransmitter.skipTransmitted] at ht
    split_ifs at ht with hmore
    · have hmem : (s.inputSdus s.currentSduIndex).memBlock = none := by
        refine Option.eq_none_iff_forall_not_mem.mpr fun data hdata ↦ ?_
        obtain ⟨-, -, -, hfalse⟩ := (h.slots s.currentSduIndex).waiting data hdata
        rw [hfalse] at hmore
        exact Bool.false_ne_true hmore.2
      obtain ⟨hkept, hremaining, honly⟩ := ih (h.skip hmem) ht
      refine ⟨hkept, hremaining, OnlySdus.trans ?_ honly⟩
      exact ⟨s.inputSdus, _, s.nbSdu, s.nbSduNoSegmented, s.dataConf, rfl⟩
    · cases ht
      exact .refl h

/-- The slot of an SDU to which no reference is left is freed. -/
theorem SdusKept.freeInSdu (h : SdusKept L w s) (hindex : index < 1024)
    (hsize : 0 < (s.inputSdus index).sduSize) (hunused : L.count index = 0)
    (ht : s.freeInSdu index = some t) : Confirms L w s t := by
  have hle : index ≤ rlcAmSduControlBufferSize := hindex.le
  rw [AmTransmitter.freeInSdu, if_pos hle] at ht
  by_cases hmem : (s.inputSdus index).memBlock.isSome
  · rw [if_pos hmem] at ht
    cases ht
  rw [if_neg hmem] at ht
  have hnone := Option.not_isSome_iff_eq_none.mp hmem
  have hfreed : SdusKept L w ({ s with nbSdu := s.nbSdu - 1 }.setSdu index
      { AmTxSdu.zero with transmittedSuccessfully := true }) := by
    refine ⟨?_, ?_, ?_, ?_, ?_, ?_⟩
    · exact forall_setSdu (P := fun _ sdu ↦ sdu.Kept) (fun i _ ↦ h.slots i) (.zero true)
    · obtain ⟨gap, hring⟩ := h.ring
      refine ⟨gap, hring.congr fun i _ ↦ ?_⟩
      rcases eq_or_ne i index with rfl | hne
      · rw [waitingAt, setSdu_same, waitingAt, hnone]
        rfl
      · rw [waitingAt, setSdu_other _ _ hne]
        rfl
    · exact forall_setSdu (s := s)
        (P := fun i sdu ↦ sdu.memBlock.isSome → i ≠ s.currentSduIndex → sdu.sduSegmentedSize = 0)
        (fun i _ ↦ h.begun i) fun hsome ↦ by cases hsome
    · exact occupied_card hindex h.nbSdu_eq _ (-1) (by rw [if_pos hsize]; rfl)
    · have hcard := unsegmented_card hindex h.nbSduNoSegmented_eq
        { AmTxSdu.zero with transmittedSuccessfully := true } 0 (by rw [hnone]; rfl)
      rwa [Int.add_zero] at hcard
    · refine forall_setSdu (s := s) (P := fun i sdu ↦ sdu.nbPdusAck.toNat + L.count i ≤ sdu.nbPdus.toNat)
        (fun i _ ↦ h.refs i) ?_
      rw [hunused]
      exact Nat.zero_le _
  have hremaining := remaining_update s.inputSdus hindex { AmTxSdu.zero with transmittedSuccessfully := true }
  rw [(h.slots index).ended hnone] at hremaining
  have hfirst : Confirms L w s ({ s with nbSdu := s.nbSdu - 1 }.setSdu index
      { AmTxSdu.zero with transmittedSuccessfully := true }) :=
    ⟨hfreed, Nat.add_right_cancel hremaining, _, s.currentSduIndex, _, s.nbSduNoSegmented, s.dataConf, rfl⟩
  dsimp only at ht
  split_ifs at ht with hcurrent
  · have hnone' : (({ s with nbSdu := s.nbSdu - 1 }.setSdu index
        { AmTxSdu.zero with transmittedSuccessfully := true }).inputSdus s.currentSduIndex).memBlock = none := by
      rw [show s.currentSduIndex = index from hcurrent, setSdu_same]
      rfl
    have hskip := hfreed.skip hnone'
    have hmoved : Confirms L w s _ := ⟨hskip, Nat.add_right_cancel hremaining,
      _, _, _, s.nbSduNoSegmented, s.dataConf, rfl⟩
    exact hmoved.trans (hskip.skipTransmitted ht)
  · exact hfirst.trans (hfreed.skipTransmitted ht)

/-- The SDU is reported to the upper layer. -/
def reportSdu (index : ℕ) (s : AmTransmitter) : AmTransmitter :=
  { s.setSdu index (s.inputSdus index).confirm with dataConf := s.dataConf ++ [(s.inputSdus index).mui] }

/-- A reference is counted, and the last one to a fully segmented SDU confirms it. -/
theorem confirmSegment_cases (h : s.confirmSegment index = some t) :
    index < rlcAmSduControlBufferSize ∧
      if (s.inputSdus index).confirm.nbPdusAck = (s.inputSdus index).nbPdus ∧ (s.inputSdus index).sduRemainingSize = 0
      then (s.reportSdu index).freeInSdu index = some t
      else s.setSdu index (s.inputSdus index).confirm = t := by
  rw [AmTransmitter.confirmSegment] at h
  by_cases hindex : index < rlcAmSduControlBufferSize
  · rw [if_pos hindex] at h
    dsimp only at h
    refine ⟨hindex, ?_⟩
    split_ifs at h ⊢ with hdone hdone'
    · exact h
    · exact absurd hdone hdone'
    · exact absurd (by assumption) hdone
    · exact Option.some.inj h
  · rw [if_neg hindex] at h
    cases h

theorem confirm_nbPdusAck {sdu : AmTxSdu} (h : sdu.Kept) (hle : sdu.nbPdusAck.toNat ≤ sdu.nbPdus.toNat) :
    sdu.confirm.nbPdusAck.toNat = sdu.nbPdusAck.toNat + 1 := by
  have hlt : sdu.nbPdus.toNat < 32 := h.nbPdus_lt
  rw [AmTxSdu.confirm, UInt8.toNat_add, UInt8.toNat_one]
  omega

/-- A reference to an SDU is confirmed. -/
theorem SdusKept.confirmSegment (h : SdusKept (index :: L) w s) (ht : s.confirmSegment index = some t) :
    Confirms L w s t := by
  obtain ⟨hindex, ht⟩ := confirmSegment_cases ht
  have hold := h.slots index
  have hrefs := h.refs index
  rw [List.count_cons_self] at hrefs
  have hack := confirm_nbPdusAck hold (by omega)
  have hcounted : SdusKept L w (s.setSdu index (s.inputSdus index).confirm) := by
    refine h.set hindex ⟨hold.ended, hold.waiting, hold.nbPdus_lt, hold.free⟩ rfl rfl rfl (h.begun index) ?_ ?_
    · have hsame : (s.inputSdus index).confirm.nbPdus = (s.inputSdus index).nbPdus := rfl
      rw [hack, hsame]
      omega
    · intro i hne
      rw [List.count_cons_of_ne hne.symm]
  have hremaining := remaining_update s.inputSdus hindex (s.inputSdus index).confirm
  split_ifs at ht with hdone
  · have hlast : (s.inputSdus index).nbPdusAck.toNat + 1 = (s.inputSdus index).nbPdus.toNat :=
      hack.symm.trans (congrArg UInt8.toNat hdone.1)
    have hsize : 0 < (s.inputSdus index).sduSize := by
      refine Nat.pos_of_ne_zero fun hzero ↦ ?_
      rw [hold.free hzero] at hlast
      exact Nat.succ_ne_zero _ hlast
    have hreported : SdusKept L w (s.reportSdu index) :=
      ⟨hcounted.slots, hcounted.ring, hcounted.begun, hcounted.nbSdu_eq, hcounted.nbSduNoSegmented_eq,
        hcounted.refs⟩
    have hfirst : Confirms L w s (s.reportSdu index) :=
      ⟨hreported, Nat.add_right_cancel hremaining, _, s.currentSduIndex, s.nbSdu, s.nbSduNoSegmented, _, rfl⟩
    have hsame : (s.reportSdu index).inputSdus index = (s.inputSdus index).confirm := setSdu_same _ _ s
    refine hfirst.trans (hreported.freeInSdu hindex ?_ (by omega) ht)
    rw [hsame]
    exact hsize
  · subst ht
    exact ⟨hcounted, Nat.add_right_cancel hremaining, .setSdu _ _ s⟩

/-- Some references are confirmed, one after another. -/
theorem SdusKept.confirmSegments (h : SdusKept (refs ++ L) w s)
    (ht : refs.foldlM (fun s index ↦ s.confirmSegment index) s = some t) : Confirms L w s t := by
  induction refs generalizing s with
  | nil =>
    obtain rfl := Option.some.inj ht
    exact .refl h
  | cons index refs ih =>
    rw [List.foldlM_cons, Option.bind_eq_bind, Option.bind_eq_some_iff] at ht
    obtain ⟨u, hu, ht⟩ := ht
    have hfirst := h.confirmSegment hu
    exact hfirst.trans (ih hfirst.kept ht)

end AmTransmitter

end EdgeSlice.Rlc

namespace EdgeSlice.Rlc

open Function

section Offsets

variable {a d e n : ℕ}

theorem snAt_snAt (a d e : ℕ) : snAt (snAt a d) e = snAt a (d + e) := by
  simp only [snAt]
  omega

theorem amDiffSn_snAt_snAt (hde : d ≤ e) (he : e < d + 1024) : amDiffSn (snAt a e) (snAt a d) = e - d := by
  rw [amDiffSn_eq]
  simp only [snAt]
  omega

theorem snAt_slot (a d : ℕ) : snAt a (d + 512) % rlcAmWindowSize = snAt a d % rlcAmWindowSize := by
  simp only [snAt, rlcAmWindowSize]
  omega

theorem amPrevSn_eq (sn : ℕ) : amPrevSn sn = (sn + 1023) % 1024 := Nat.and_two_pow_sub_one_eq_mod _ 10

theorem amPrevSn_snAt (a d : ℕ) : amPrevSn (snAt a (d + 1)) = snAt a d := by
  rw [amPrevSn_eq]
  simp only [snAt]
  omega

theorem amPrevSn_snAt_zero (a : ℕ) : amPrevSn (snAt a 0) = snAt a 1023 := by
  rw [amPrevSn_eq]
  simp only [snAt]
  omega

theorem vtMs_snAt (sn : ℕ) : (sn + rlcAmWindowSize) &&& 0x3FF = snAt sn 512 := Nat.and_two_pow_sub_one_eq_mod _ 10

end Offsets

namespace AmTransmitter

variable {s t u : AmTransmitter} {w : List (ℕ × Bytes)} {L : List ℕ} {buffer : ℕ → AmTxPdu} {info : ControlPduInfo}
  {a d e m n sn fuel ackSn soStop : ℕ}

/-- The references to SDUs of the `n` PDUs from the one `d` after `a` on. -/
def refsRange (buffer : ℕ → AmTxPdu) (a d n : ℕ) : List ℕ :=
  (List.range' d n).flatMap fun k ↦ (buffer (snAt a k % rlcAmWindowSize)).listed

/-- The references to SDUs of the PDUs that have not been acknowledged in sequence. -/
def refs (s : AmTransmitter) : List ℕ := refsRange s.txDataPduBuffer s.vtA 0 (s.offset s.vtS)

theorem refsRange_add (buffer : ℕ → AmTxPdu) (a d m n : ℕ) :
    refsRange buffer a d (m + n) = refsRange buffer a d m ++ refsRange buffer a (d + m) n := by
  rw [refsRange, ← List.range'_append_1, List.flatMap_append]
  rfl

theorem refsRange_shift (buffer : ℕ → AmTxPdu) (a m d n : ℕ) :
    refsRange buffer (snAt a m) d n = refsRange buffer a (m + d) n := by
  induction n generalizing d with
  | zero => rfl
  | succ n ih =>
    simp only [refsRange, List.range'_succ, List.flatMap_cons, snAt_snAt] at ih ⊢
    exact congrArg _ (ih (d + 1))

theorem refsRange_congr {buffer' : ℕ → AmTxPdu}
    (h : ∀ k, d ≤ k → k < d + n → (buffer' (snAt a k % rlcAmWindowSize)).listed =
      (buffer (snAt a k % rlcAmWindowSize)).listed) : refsRange buffer' a d n = refsRange buffer a d n := by
  refine List.flatMap_congr fun k hk ↦ ?_
  obtain ⟨hdk, hkd⟩ := List.mem_range'_1.mp hk
  exact h k hdk hkd

/-- What the transmitting window keeps. -/
structure WindowKept (s : AmTransmitter) : Prop where
  vtA_lt : s.vtA < 1024
  vtS_lt : s.vtS < 1024
  vtMs_eq : s.vtMs = snAt s.vtA 512
  le : s.offset s.vtS ≤ 512
  sn_eq : ∀ d < s.offset s.vtS, (s.pduOf (snAt s.vtA d)).sn = snAt s.vtA d
  held : ∀ d < s.offset s.vtS, (s.pduOf (snAt s.vtA d)).ack = false → (s.pduOf (snAt s.vtA d)).memBlock.isSome
  /-- Behind the window the slots are free. -/
  stale : ∀ d, s.offset s.vtS ≤ d → d < 512 → (s.pduOf (snAt s.vtA d)).Released
  bounded : ∀ i, (s.txDataPduBuffer i).Bounded

/-- What the transmitter keeps; the SDUs in `w` are not fully segmented. -/
structure TxKept (w : List (ℕ × Bytes)) (s : AmTransmitter) : Prop where
  window : s.WindowKept
  sdus : SdusKept s.refs w s
  occupancy : s.sduBufferOccupancy = remaining s.inputSdus

theorem OnlyPdus.refs_eq (h : s.OnlyPdus t) : t.refs = s.refs := by
  rw [refs, refs, offset, offset, h.vtA_eq, h.vtS_eq]
  refine refsRange_congr fun k _ _ ↦ ?_
  rw [AmTxPdu.listed, AmTxPdu.listed, (h.pdus _).sdusIndex_eq, (h.pdus _).nbSdus_eq]

theorem OnlyPdus.sdusKept (h : s.OnlyPdus t) (hs : SdusKept L w s) : SdusKept L w t where
  slots i := by
    rw [h.inputSdus_eq]
    exact hs.slots i
  ring := by
    have hsame : t.waitingAt = s.waitingAt := by
      funext i
      rw [waitingAt, waitingAt, h.inputSdus_eq]
    rw [hsame, h.currentSduIndex_eq, h.nextSduIndex_eq]
    exact hs.ring
  begun := by
    rw [h.inputSdus_eq, h.currentSduIndex_eq]
    exact hs.begun
  nbSdu_eq := by
    rw [h.nbSdu_eq, h.inputSdus_eq]
    exact hs.nbSdu_eq
  nbSduNoSegmented_eq := by
    rw [h.nbSduNoSegmented_eq, h.inputSdus_eq]
    exact hs.nbSduNoSegmented_eq
  refs := by
    rw [h.inputSdus_eq]
    exact hs.refs

theorem OnlyPdus.windowKept (h : s.OnlyPdus t) (hs : s.WindowKept) : t.WindowKept := by
  have hoffset : t.offset t.vtS = s.offset s.vtS := by rw [offset, offset, h.vtA_eq, h.vtS_eq]
  have hpdu (d : ℕ) : (s.pduOf (snAt s.vtA d)).Continues (t.pduOf (snAt t.vtA d)) := by
    rw [h.vtA_eq]
    exact h.pdus _
  refine ⟨?_, ?_, ?_, ?_, ?_, ?_, ?_, ?_⟩
  · exact h.vtA_eq ▸ hs.vtA_lt
  · exact h.vtS_eq ▸ hs.vtS_lt
  · rw [h.vtMs_eq, h.vtA_eq]
    exact hs.vtMs_eq
  · exact hoffset ▸ hs.le
  · intro d hd
    rw [(hpdu d).sn_eq, hs.sn_eq d (hoffset ▸ hd), h.vtA_eq]
  · intro d hd hack
    obtain ⟨hack', hmem⟩ := (hpdu d).unacknowledged hack
    rw [hmem]
    exact hs.held d (hoffset ▸ hd) hack'
  · intro d hle hlt
    exact (hpdu d).released (hs.stale d (hoffset ▸ hle) hlt)
  · exact fun i ↦ (h.pdus i).bounded (hs.bounded i)

/-- What only concerns the PDUs keeps everything. -/
theorem OnlyPdus.kept (h : s.OnlyPdus t) (hs : TxKept w s) : TxKept w t where
  window := h.windowKept hs.window
  sdus := h.refs_eq ▸ h.sdusKept hs.sdus
  occupancy := by
    rw [h.sduBufferOccupancy_eq, h.inputSdus_eq]
    exact hs.occupancy

/-- The SDUs of some PDUs are confirmed, one PDU after another. -/
theorem SdusKept.confirmUpTo (ha : a < 1024) (hde : d ≤ e) (he : e < 1024)
    (h : SdusKept (refsRange s.txDataPduBuffer a d (e - d) ++ L) w s)
    (ht : s.confirmUpTo (snAt a e) fuel (snAt a d) = some t) : Confirms L w s t := by
  induction fuel generalizing s d with
  | zero => cases ht
  | succ fuel ih =>
    rw [AmTransmitter.confirmUpTo] at ht
    rcases hde.eq_or_lt with rfl | hlt
    · rw [if_neg fun hne ↦ hne rfl] at ht
      cases ht
      rw [Nat.sub_self] at h
      exact .refl h
    · rw [if_pos (snAt_ne ha (by omega) he hlt.ne), Option.bind_eq_bind, Option.bind_eq_some_iff] at ht
      obtain ⟨u, hu, ht⟩ := ht
      have hsplit : refsRange s.txDataPduBuffer a d (e - d) =
          (s.pduOf (snAt a d)).listed ++ refsRange s.txDataPduBuffer a (d + 1) (e - (d + 1)) := by
        rw [show e - d = 1 + (e - (d + 1)) by omega, refsRange_add]
        exact congrArg (· ++ _) (List.append_nil _)
      rw [hsplit, List.append_assoc] at h
      have hfirst := h.confirmSegments hu
      have hkept := hfirst.kept
      rw [amNextSn_snAt] at ht
      rw [← hfirst.only.txDataPduBuffer_eq] at hkept
      exact hfirst.trans (ih hlt hkept ht)

theorem OnlySdus.windowKept (h : s.OnlySdus t) (hs : s.WindowKept) : t.WindowKept := by
  obtain ⟨_, _, _, _, _, rfl⟩ := h
  exact ⟨hs.vtA_lt, hs.vtS_lt, hs.vtMs_eq, hs.le, hs.sn_eq, hs.held, hs.stale, hs.bounded⟩

theorem OnlySdus.pduOf_eq (h : s.OnlySdus t) (sn : ℕ) : t.pduOf sn = s.pduOf sn :=
  congrFun h.txDataPduBuffer_eq _

section Status

/-- VT(A) moves over PDUs that have been released. -/
theorem WindowKept.move (h : s.WindowKept) (hm : m ≤ s.offset s.vtS)
    (hreleased : ∀ d < m, (s.pduOf (snAt s.vtA d)).Released) :
    { s with vtA := snAt s.vtA m, vtMs := (snAt s.vtA m + rlcAmWindowSize) &&& 0x3FF }.WindowKept := by
  have hle := h.le
  have hvtS : snAt s.vtA (s.offset s.vtS) = s.vtS := snAt_offset h.vtA_lt h.vtS_lt
  have hoffset : amDiffSn s.vtS (snAt s.vtA m) = s.offset s.vtS - m := by
    rw [← hvtS, amDiffSn_snAt_snAt hm (by omega), hvtS]
  refine ⟨snAt_lt _ _, h.vtS_lt, vtMs_snAt _, ?_, ?_, ?_, ?_, h.bounded⟩
  · change amDiffSn s.vtS (snAt s.vtA m) ≤ 512
    omega
  · intro d hd
    change d < amDiffSn s.vtS (snAt s.vtA m) at hd
    change (s.pduOf (snAt (snAt s.vtA m) d)).sn = snAt (snAt s.vtA m) d
    rw [snAt_snAt]
    exact h.sn_eq (m + d) (by omega)
  · intro d hd
    change d < amDiffSn s.vtS (snAt s.vtA m) at hd
    change (s.pduOf (snAt (snAt s.vtA m) d)).ack = false → (s.pduOf (snAt (snAt s.vtA m) d)).memBlock.isSome
    rw [snAt_snAt]
    exact h.held (m + d) (by omega)
  · intro d hd hlt
    change amDiffSn s.vtS (snAt s.vtA m) ≤ d at hd
    change (s.pduOf (snAt (snAt s.vtA m) d)).Released
    rw [snAt_snAt]
    rcases Nat.lt_or_ge (m + d) 512 with hin | hout
    · exact h.stale (m + d) (by omega) hin
    · have hsame : s.pduOf (snAt s.vtA (m + d)) = s.pduOf (snAt s.vtA (m + d - 512)) := by
        have hslot := snAt_slot s.vtA (m + d - 512)
        rw [Nat.sub_add_cancel hout] at hslot
        exact congrArg s.txDataPduBuffer hslot
      rw [hsame]
      exact hreleased _ (by omega)

/-- The PDU before the first one of the window, or before one that has been released, is not in transmission. -/
theorem WindowKept.not_transmitted (h : s.WindowKept)
    (hreleased : ∀ d < m, (s.pduOf (snAt s.vtA d)).Released) :
    ¬((s.pduOf (amPrevSn (snAt s.vtA m))).transmitted = true ∧
      (s.pduOf (amPrevSn (snAt s.vtA m))).sn = amPrevSn (snAt s.vtA m)) := by
  rintro ⟨htx, hsn⟩
  cases m with
  | succ m =>
    rw [amPrevSn_snAt] at htx
    exact Bool.false_ne_true ((hreleased m (Nat.lt_succ_self m)).2.symm.trans htx)
  | zero =>
    have hslot : s.pduOf (snAt s.vtA 1023) = s.pduOf (snAt s.vtA 511) :=
      congrArg s.txDataPduBuffer (snAt_slot s.vtA 511)
    rw [amPrevSn_snAt_zero, hslot] at htx hsn
    rcases Nat.lt_or_ge 511 (s.offset s.vtS) with hin | hout
    · rw [h.sn_eq 511 hin] at hsn
      exact snAt_ne h.vtA_lt (by decide) (by decide) (by decide) hsn
    · exact Bool.false_ne_true ((h.stale 511 hout (by decide)).2.symm.trans htx)

/-- The references of the PDUs that VT(A) passes are confirmed, or left as they are. -/
theorem TxKept.confirmSdus (h : TxKept w s) (hm : m ≤ s.offset s.vtS)
    (hreleased : ∀ d < m, (s.pduOf (snAt s.vtA d)).Released)
    (hcnf : sn = amPrevSn (snAt s.vtA m) ∨ sn = snAt s.vtA m ∧ soStop ≠ 0x7FFF)
    (ht : s.confirmSdus sn soStop = some t) :
    Confirms (refsRange s.txDataPduBuffer (snAt s.vtA m) 0 (s.offset s.vtS - m)) w s t := by
  have hsplit : s.refs = refsRange s.txDataPduBuffer s.vtA 0 m ++
      refsRange s.txDataPduBuffer (snAt s.vtA m) 0 (s.offset s.vtS - m) := by
    rw [refs, show s.offset s.vtS = m + (s.offset s.vtS - m) by omega, refsRange_add, Nat.zero_add,
      Nat.add_sub_cancel_left, refsRange_shift, Nat.add_zero]
  have hsdus := h.sdus
  rw [hsplit] at hsdus
  rw [AmTransmitter.confirmSdus] at ht
  change (if (s.pduOf sn).transmitted = true ∧ (s.pduOf sn).sn = sn then _ else _) = _ at ht
  by_cases hguard : (s.pduOf sn).transmitted = true ∧ (s.pduOf sn).sn = sn
  · rw [if_pos hguard, Option.bind_eq_bind, Option.bind_eq_some_iff] at ht
    obtain ⟨u, hu, ht⟩ := ht
    rcases hcnf with rfl | ⟨rfl, hso⟩
    · exact absurd hguard (h.window.not_transmitted hreleased)
    · rw [if_neg hso] at ht
      cases ht
      have hfirst : s.confirmUpTo (snAt s.vtA m) 1025 (snAt s.vtA 0) = some t := by
        rw [snAt_zero h.window.vtA_lt]
        exact hu
      have hle := h.window.le
      exact SdusKept.confirmUpTo h.window.vtA_lt (Nat.zero_le m) (by omega) hsdus hfirst
  · rw [if_neg hguard] at ht
    cases ht
    refine .refl (hsdus.mono fun i ↦ ?_)
    rw [List.count_append]
    exact Nat.le_add_left _ _

/-- The end of an accepted report. -/
theorem TxKept.acceptStatus (h : TxKept w s) (hm : m ≤ s.offset s.vtS)
    (hreleased : ∀ d < m, (s.pduOf (snAt s.vtA d)).Released)
    (hcnf : sn = amPrevSn (snAt s.vtA m) ∨ sn = snAt s.vtA m ∧ soStop ≠ 0x7FFF)
    (ht : s.acceptStatus ackSn (snAt s.vtA m) sn soStop = some t) : TxKept w t := by
  have hstop := stopPoll_only ackSn s
  rw [AmTransmitter.acceptStatus, Option.bind_eq_bind, Option.bind_eq_some_iff] at ht
  obtain ⟨u, hu, ht⟩ := ht
  cases ht
  generalize s.stopPoll ackSn = v at hu hstop
  have hkept := hstop.kept h
  have hvtA : v.vtA = s.vtA := hstop.vtA_eq
  have hoffset : v.offset v.vtS = s.offset s.vtS := by rw [offset, offset, hvtA, hstop.vtS_eq]
  have hreleased' (d : ℕ) (hd : d < m) : (v.pduOf (snAt v.vtA d)).Released := by
    rw [hvtA]
    exact (hstop.pdus _).released (hreleased d hd)
  rw [← hoffset] at hm
  rw [← hvtA] at hcnf ⊢
  have hconfirms := hkept.confirmSdus hm hreleased' hcnf hu
  have hwindow := hconfirms.only.windowKept hkept.window
  have hpdus := hconfirms.only.pduOf_eq
  have hremaining := hconfirms.remaining_eq
  have hsdus := hconfirms.kept
  have hnew : amDiffSn v.vtS (snAt v.vtA m) = v.offset v.vtS - m := by
    have hvtS : snAt v.vtA (v.offset v.vtS) = v.vtS := snAt_offset hkept.window.vtA_lt hkept.window.vtS_lt
    have hle := hkept.window.le
    rw [← hvtS, amDiffSn_snAt_snAt hm (by omega), hvtS]
  rw [← hnew] at hsdus
  obtain ⟨sdus, current, nbSdu, nbSduNoSegmented, dataConf, rfl⟩ := hconfirms.only
  refine ⟨hwindow.move hm fun d hd ↦ ?_, ?_, hkept.occupancy.trans hremaining.symm⟩
  · rw [hpdus]
    exact hreleased' d hd
  · exact ⟨hsdus.slots, hsdus.ring, hsdus.begun, hsdus.nbSdu_eq, hsdus.nbSduNoSegmented_eq, hsdus.refs⟩

/-- The parts of a PDU that are NACKed do not reach as far as the mark for the end of a PDU. -/
theorem WindowKept.lastConfirmed (h : s.WindowKept) (nackSn : ℕ) :
    (s.lastConfirmed nackSn).1 = amPrevSn nackSn ∨
      (s.lastConfirmed nackSn).1 = nackSn ∧ (s.lastConfirmed nackSn).2 ≠ 0x7FFF := by
  have hbounded := h.bounded (nackSn % rlcAmWindowSize)
  have hle := hbounded.nackSoStart_le
  have hlt : (s.txDataPduBuffer (nackSn % rlcAmWindowSize)).payloadSize < 9000 := hbounded.payloadSize_lt
  rw [AmTransmitter.lastConfirmed]
  split_ifs
  · exact .inl rfl
  · exact .inr ⟨rfl, by dsimp only; omega⟩
  · exact .inl rfl

theorem WindowKept.ackRange (h : s.WindowKept) (hsn : sn < 1024) (ht : s.ackUpTo sn 1025 s.vtA = some t) :
    s.ackRange true s.vtA (s.offset sn) 0 = some t := by
  have heq := ackUpTo_eq (s := s) h.vtA_lt (Nat.zero_le (s.offset sn)) (s.offset_lt sn)
    (show s.offset sn - 0 < 1025 from (s.offset_lt sn).trans (by decide))
  rw [snAt_offset h.vtA_lt hsn, snAt_zero h.vtA_lt] at heq
  exact heq.symm.trans ht

/-- The PDUs up to a sequence number are acknowledged and released. -/
theorem WindowKept.ackUpTo (h : s.WindowKept) (hsn : sn < 1024) (ht : s.ackUpTo sn 1025 s.vtA = some t) :
    s.OnlyPdus t ∧ ∀ d < s.offset sn, (t.pduOf (snAt t.vtA d)).Released := by
  have hrange := h.ackRange hsn ht
  have honly := ackRange_only hrange
  refine ⟨honly, fun d hd ↦ ?_⟩
  rw [honly.vtA_eq]
  exact ackRange_released hrange (Nat.zero_le d) (by omega)

/-- A sequence number whose PDU is there, once all PDUs before it have been released, is in the window. -/
theorem WindowKept.lt_of_isSome (h : s.WindowKept) (hm : m < 1024)
    (hreleased : ∀ d < m, (s.pduOf (snAt s.vtA d)).Released)
    (hmem : (s.pduOf (snAt s.vtA m)).memBlock.isSome) : m < s.offset s.vtS := by
  refine Nat.lt_of_not_le fun hbehind ↦ ?_
  have hnone : (s.pduOf (snAt s.vtA m)).memBlock = none := by
    rcases Nat.lt_or_ge m 512 with hin | hout
    · exact (h.stale m hbehind hin).1
    · have hslot := snAt_slot s.vtA (m - 512)
      rw [Nat.sub_add_cancel hout] at hslot
      exact (congrArg (fun i ↦ (s.txDataPduBuffer i).memBlock) hslot).trans (hreleased _ (by omega)).1
  rw [hnone] at hmem
  cases hmem

/-- Whatever a report says, the transmitter keeps what it has to keep. -/
theorem TxKept.receive (h : TxKept w s) (ht : s.receiveProcessControlPdu (some info) = some t) : TxKept w t := by
  have hvtA := h.window.vtA_lt
  rw [receiveProcessControlPdu] at ht
  split_ifs at ht with hlong hwindow
  · cases hnacks : info.nackList with
    | nil =>
      rw [hnacks] at ht
      simp only [Option.bind_eq_bind, Option.bind_eq_some_iff] at ht
      obtain ⟨u, hu, ht⟩ := ht
      obtain ⟨honly, hreleased⟩ := h.window.ackUpTo info.ackSn_lt hu
      have hack : snAt u.vtA (s.offset info.ackSn) = info.ackSn := by
        rw [honly.vtA_eq]
        exact snAt_offset hvtA info.ackSn_lt
      have hle : s.offset info.ackSn ≤ u.offset u.vtS := by
        rw [offset, offset, honly.vtA_eq, honly.vtS_eq]
        exact hwindow
      rw [← hack] at ht
      exact (honly.kept h).acceptStatus hle hreleased (.inl rfl) ht
    | cons nack nacks =>
      rw [hnacks] at ht
      simp only [Option.bind_eq_bind, Option.bind_eq_some_iff] at ht
      obtain ⟨u, hu, ⟨v, status⟩, hv, ht⟩ := ht
      obtain ⟨honly, hreleased⟩ := h.window.ackUpTo nack.sn_lt hu
      have hloop := nackLoop_only hv
      have hkept := hloop.kept (honly.kept h)
      cases status with
      | false =>
        cases ht
        exact hkept
      | true =>
        have hvA : v.vtA = s.vtA := hloop.vtA_eq.trans honly.vtA_eq
        have hvS : v.vtS = s.vtS := hloop.vtS_eq.trans honly.vtS_eq
        have hnack : snAt s.vtA (s.offset nack.nackSn) = nack.nackSn := snAt_offset hvtA nack.sn_lt
        have hle : s.offset nack.nackSn ≤ v.offset v.vtS := by
          rw [offset, offset, hvA, hvS]
          rcases nackLoop_first hv with heq | hmem
          · rw [heq]
            exact hwindow
          · rw [← hnack, ← honly.vtA_eq] at hmem
            have hlt := (honly.kept h).window.lt_of_isSome (s.offset_lt _) hreleased hmem
            rw [offset, offset, honly.vtA_eq, honly.vtS_eq] at hlt
            exact hlt.le
        have hcnf := (honly.kept h).window.lastConfirmed nack.nackSn
        rw [← hnack, ← hvA] at hcnf
        rw [← hnack, ← hvA, if_pos rfl] at ht
        refine hkept.acceptStatus hle (fun d hd ↦ ?_) hcnf ht
        rw [hloop.vtA_eq]
        exact (hloop.pdus _).released (hreleased d hd)
  · cases ht
    exact h

end Status

end AmTransmitter

end EdgeSlice.Rlc
