import EdgeSlice.Rlc.AmTxBuffer

namespace EdgeSlice.Rlc

open Function

/-- Segmentation leaves alone which SDU it is, and which PDUs refer to it. -/
structure AmTxSdu.SameRefs (a b : AmTxSdu) : Prop where
  mui_eq : b.mui = a.mui
  sduSize_eq : b.sduSize = a.sduSize
  nbPdus_eq : b.nbPdus = a.nbPdus
  nbPdusAck_eq : b.nbPdusAck = a.nbPdusAck

theorem AmTxSdu.SameRefs.refl (a : AmTxSdu) : a.SameRefs a := ⟨rfl, rfl, rfl, rfl⟩

theorem AmTxSdu.SameRefs.trans {a b c : AmTxSdu} (h : a.SameRefs b) (h' : b.SameRefs c) : a.SameRefs c :=
  ⟨h'.mui_eq.trans h.mui_eq, h'.sduSize_eq.trans h.sduSize_eq, h'.nbPdus_eq.trans h.nbPdus_eq,
    h'.nbPdusAck_eq.trans h.nbPdusAck_eq⟩

namespace AmTransmitter

variable {s t u : AmTransmitter} {f f' : AmFilling} {L L' refs : List ℕ} {w w' : List (ℕ × Bytes)}
  {i index mui testNumLi fuel : ℕ}

/-- The slots of SDUs with an identifier that have not been confirmed. -/
def unconfirmed (mui : ℕ) (inputSdus : ℕ → AmTxSdu) : Finset ℕ :=
  (Finset.range 1024).filter fun i ↦ 0 < (inputSdus i).sduSize ∧ (inputSdus i).mui = mui

theorem unconfirmed_update (sdus : ℕ → AmTxSdu) (hindex : index < 1024) (sdu : AmTxSdu) (mui : ℕ) :
    (unconfirmed mui (update sdus index sdu)).card +
        (if 0 < (sdus index).sduSize ∧ (sdus index).mui = mui then 1 else 0) =
      (unconfirmed mui sdus).card + (if 0 < sdu.sduSize ∧ sdu.mui = mui then 1 else 0) :=
  RingQueue.card_update hindex sdus (fun sdu ↦ 0 < sdu.sduSize ∧ sdu.mui = mui) sdu

theorem unconfirmed_congr {sdus sdus' : ℕ → AmTxSdu}
    (h : ∀ i, (sdus' i).sduSize = (sdus i).sduSize ∧ (sdus' i).mui = (sdus i).mui) (mui : ℕ) :
    unconfirmed mui sdus' = unconfirmed mui sdus := by
  refine Finset.filter_congr fun i _ ↦ ?_
  rw [(h i).1, (h i).2]

/-- How often the SDUs with an identifier have been confirmed, or wait for it. -/
def accounted (mui : ℕ) (s : AmTransmitter) : ℕ := s.dataConf.count mui + (unconfirmed mui s.inputSdus).card

/-- The references in `L` are all that is missing for the confirmation of the SDUs. -/
structure Referred (L : List ℕ) (w : List (ℕ × Bytes)) (s : AmTransmitter) : Prop extends SdusKept L w s where
  refs_eq : ∀ i, (s.inputSdus i).nbPdusAck.toNat + L.count i = (s.inputSdus i).nbPdus.toNat
  pending : ∀ i, 0 < (s.inputSdus i).sduSize → (s.inputSdus i).memBlock = none → i ∈ L

namespace Referred

theorem init (pollPdu pollByte msDuration : ℕ) : Referred [] [] (start pollPdu pollByte msDuration) where
  toSdusKept := .init _ _ _
  refs_eq _ := rfl
  pending _ hsize := absurd hsize (Nat.lt_irrefl 0)

/-- The slot of an SDU to which a PDU refers is not free. -/
theorem size_pos (h : Referred L w s) (hmem : i ∈ L) : 0 < (s.inputSdus i).sduSize := by
  refine Nat.pos_of_ne_zero fun hzero ↦ ?_
  have hrefs := h.refs_eq i
  have hcount := List.count_pos_iff.mpr hmem
  rw [(h.slots i).free hzero, UInt8.toNat_zero] at hrefs
  omega

end Referred

section Confirmation

theorem skipTransmitted_inputSdus (h : s.skipTransmitted fuel = some t) :
    t.inputSdus = s.inputSdus ∧ t.dataConf = s.dataConf := by
  induction fuel generalizing s with
  | zero => cases h
  | succ fuel ih =>
    rw [skipTransmitted] at h
    split_ifs at h
    · obtain ⟨hsdus, hconf⟩ := ih h
      exact ⟨hsdus, hconf⟩
    · cases h
      exact ⟨rfl, rfl⟩

theorem freeInSdu_inputSdus (hindex : index < 1024) (h : s.freeInSdu index = some t) :
    t.inputSdus = update s.inputSdus index { AmTxSdu.zero with transmittedSuccessfully := true } ∧
      t.dataConf = s.dataConf := by
  have hle : index ≤ rlcAmSduControlBufferSize := hindex.le
  rw [freeInSdu, if_pos hle] at h
  by_cases hmem : (s.inputSdus index).memBlock.isSome
  · rw [if_pos hmem] at h
    cases h
  rw [if_neg hmem] at h
  dsimp only at h
  split_ifs at h
  · exact skipTransmitted_inputSdus h
  · exact skipTransmitted_inputSdus h

/-- A reference is confirmed; with the last one the SDU is reported and its slot freed. -/
theorem Referred.confirmSegment (h : Referred (index :: L) w s) (ht : s.confirmSegment index = some t) :
    Referred L w t ∧ ∀ mui, t.accounted mui = s.accounted mui := by
  have hkept := (h.toSdusKept.confirmSegment ht).kept
  obtain ⟨hindex, ht⟩ := confirmSegment_cases ht
  have hold := h.slots index
  have hsize := h.size_pos List.mem_cons_self
  have hrefs := h.refs_eq index
  rw [List.count_cons_self] at hrefs
  have hack := confirm_nbPdusAck hold (by omega)
  have hrest (i : ℕ) (hne : i ≠ index) : (s.inputSdus i).nbPdusAck.toNat + L.count i = (s.inputSdus i).nbPdus.toNat ∧
      (0 < (s.inputSdus i).sduSize → (s.inputSdus i).memBlock = none → i ∈ L) := by
    refine ⟨?_, fun hpos hmem ↦ ?_⟩
    · rw [← h.refs_eq i, List.count_cons_of_ne hne.symm]
    · exact List.mem_of_ne_of_mem hne (h.pending i hpos hmem)
  split_ifs at ht with hdone
  · obtain ⟨hsdus, hconf⟩ := freeInSdu_inputSdus hindex ht
    have hlast : (s.inputSdus index).nbPdusAck.toNat + 1 = (s.inputSdus index).nbPdus.toNat :=
      hack.symm.trans (congrArg UInt8.toNat hdone.1)
    have hfreed : t.inputSdus = update s.inputSdus index { AmTxSdu.zero with transmittedSuccessfully := true } := by
      rw [hsdus]
      exact update_idem _ _ _
    refine ⟨⟨hkept, fun i ↦ ?_, fun i ↦ ?_⟩, fun mui ↦ ?_⟩
    · rw [hfreed]
      rcases eq_or_ne i index with rfl | hne
      · have hunused : L.count i = 0 := by omega
        rw [update_self, hunused]
        rfl
      · rw [update_of_ne hne]
        exact (hrest i hne).1
    · rw [hfreed]
      rcases eq_or_ne i index with rfl | hne
      · rw [update_self]
        exact fun hpos ↦ absurd hpos (Nat.lt_irrefl 0)
      · rw [update_of_ne hne]
        exact (hrest i hne).2
    · have hcard := unconfirmed_update s.inputSdus hindex { AmTxSdu.zero with transmittedSuccessfully := true } mui
      have hmui : t.dataConf = s.dataConf ++ [(s.inputSdus index).mui] := hconf
      rw [accounted, accounted, hfreed, hmui, List.count_append, List.count_singleton]
      simp only [hsize, true_and, AmTxSdu.zero, Nat.lt_irrefl, false_and, if_false, beq_iff_eq] at hcard ⊢
      omega
  · subst ht
    refine ⟨⟨hkept, fun i ↦ ?_, fun i ↦ ?_⟩, fun mui ↦ ?_⟩
    · rcases eq_or_ne i index with rfl | hne
      · rw [setSdu_same, hack, ← show (s.inputSdus i).nbPdus = (s.inputSdus i).confirm.nbPdus from rfl]
        omega
      · rw [setSdu_other _ _ hne]
        exact (hrest i hne).1
    · rcases eq_or_ne i index with rfl | hne
      · rw [setSdu_same]
        intro _ hmem
        have hnotLast : (s.inputSdus i).confirm.nbPdusAck ≠ (s.inputSdus i).nbPdus :=
          fun heq ↦ hdone ⟨heq, hold.ended hmem⟩
        have hne : (s.inputSdus i).nbPdusAck.toNat + 1 ≠ (s.inputSdus i).nbPdus.toNat :=
          fun heq ↦ hnotLast (UInt8.toNat_inj.mp (hack.trans heq))
        exact List.count_pos_iff.mp (by omega)
      · rw [setSdu_other _ _ hne]
        exact (hrest i hne).2
    · refine congrArg (_ + Finset.card ·) (unconfirmed_congr (fun i ↦ ?_) mui)
      rcases eq_or_ne i index with rfl | hne
      · rw [setSdu_same]
        exact ⟨rfl, rfl⟩
      · rw [setSdu_other _ _ hne]
        exact ⟨rfl, rfl⟩

theorem Referred.confirmSegments (h : Referred (refs ++ L) w s)
    (ht : refs.foldlM (fun s index ↦ s.confirmSegment index) s = some t) :
    Referred L w t ∧ ∀ mui, t.accounted mui = s.accounted mui := by
  induction refs generalizing s with
  | nil =>
    obtain rfl := Option.some.inj ht
    exact ⟨h, fun _ ↦ rfl⟩
  | cons index refs ih =>
    rw [List.foldlM_cons, Option.bind_eq_bind, Option.bind_eq_some_iff] at ht
    obtain ⟨u, hu, ht⟩ := ht
    obtain ⟨hfirst, haccounted⟩ := h.confirmSegment hu
    obtain ⟨hrest, haccounted'⟩ := ih hfirst ht
    exact ⟨hrest, fun mui ↦ (haccounted' mui).trans (haccounted mui)⟩

end Confirmation

section Requests

/-- An SDU is accepted. -/
theorem Referred.dataReq (req : AmDataReq) (h : Referred L w s) (hmem : (s.inputSdus s.nextSduIndex).memBlock = none)
    (hfull : (s.nextSduIndex + 1) % rlcAmSduControlBufferSize ≠ s.currentSduIndex)
    (hfree : (s.inputSdus s.nextSduIndex).sduSize = 0) :
    Referred L (w ++ [(req.mui, req.data)]) (s.dataReq req) ∧
      ∀ mui, (s.dataReq req).accounted mui = s.accounted mui + if req.mui = mui then 1 else 0 := by
  have hkept := (h.toSdusKept.dataReq req hmem hfull hfree).1
  have hpos : 0 < req.data.length := List.length_pos_iff.mpr req.data_ne_nil
  have hsdus : (s.dataReq req).inputSdus = update s.inputSdus s.nextSduIndex (.ofReq req) := by
    rw [AmTransmitter.dataReq, if_pos ⟨Option.isNone_iff_eq_none.mpr hmem, hfull⟩]
    rfl
  have hconf : (s.dataReq req).dataConf = s.dataConf := by
    rw [AmTransmitter.dataReq, if_pos ⟨Option.isNone_iff_eq_none.mpr hmem, hfull⟩]
    rfl
  refine ⟨⟨hkept, fun i ↦ ?_, fun i ↦ ?_⟩, fun mui ↦ ?_⟩
  · rw [hsdus]
    rcases eq_or_ne i s.nextSduIndex with rfl | hne
    · have hrefs := h.refs_eq s.nextSduIndex
      rw [(h.slots _).free hfree, UInt8.toNat_zero] at hrefs
      have hunused : L.count s.nextSduIndex = 0 := by omega
      rw [update_self, hunused]
      rfl
    · rw [update_of_ne hne]
      exact h.refs_eq i
  · rw [hsdus]
    rcases eq_or_ne i s.nextSduIndex with rfl | hne
    · rw [update_self]
      exact fun _ hnone ↦ by cases hnone
    · rw [update_of_ne hne]
      exact h.pending i
  · have hcard := unconfirmed_update s.inputSdus h.next_lt (.ofReq req) mui
    have hnew : (if 0 < (AmTxSdu.ofReq req).sduSize ∧ (AmTxSdu.ofReq req).mui = mui then 1 else 0) =
        if req.mui = mui then 1 else 0 := if_congr (and_iff_right hpos) rfl rfl
    rw [hnew, hfree, if_neg fun h ↦ Nat.lt_irrefl 0 h.1, Nat.add_zero] at hcard
    rw [accounted, accounted, hsdus, hconf, hcard, Nat.add_assoc]

end Requests

section Segmentation

/-- A PDU lists an SDU. -/
theorem Referred.listSdu (h : Referred L w s) (hindex : index < 1024) (hmem : (s.inputSdus index).memBlock.isSome)
    (ht : s.listSdu index = some t) : Referred (L ++ [index]) w t ∧ ∀ mui, t.accounted mui = s.accounted mui := by
  have hkept := h.toSdusKept.listSdu hindex hmem ht
  obtain ⟨rfl, -⟩ := listSdu_eq ht
  refine ⟨⟨hkept, fun i ↦ ?_, fun i hpos hnone ↦ ?_⟩, fun mui ↦ ?_⟩
  · have hrefs := h.refs_eq i
    rcases eq_or_ne i index with rfl | hne
    · have hack : (s.inputSdus i).list.nbPdusAck = (s.inputSdus i).nbPdusAck := rfl
      rw [setSdu_same, list_nbPdus (h.slots i), hack, List.count_append, List.count_singleton_self]
      omega
    · rw [setSdu_other _ _ hne, List.count_append, List.count_singleton, if_neg (by simpa using hne.symm)]
      exact hrefs
  · rcases eq_or_ne i index with rfl | hne
    · exact List.mem_append_right _ List.mem_cons_self
    · rw [setSdu_other _ _ hne] at hpos hnone
      exact List.mem_append_left _ (h.pending i hpos hnone)
  · refine congrArg (_ + Finset.card ·) (unconfirmed_congr (fun i ↦ ?_) mui)
    rcases eq_or_ne i index with rfl | hne
    · rw [setSdu_same]
      exact ⟨rfl, rfl⟩
    · rw [setSdu_other _ _ hne]
      exact ⟨rfl, rfl⟩

theorem listSdu_isSome (hmem : (s.inputSdus i).memBlock.isSome) (ht : s.listSdu index = some t) :
    (t.inputSdus i).memBlock.isSome := by
  obtain ⟨rfl, -⟩ := listSdu_eq ht
  rcases eq_or_ne i index with rfl | hne
  · rw [setSdu_same]
    exact hmem
  · rwa [setSdu_other _ _ hne]

theorem listSdus_same (ht : refs.foldlM (fun s index ↦ s.listSdu index) s = some t) :
    t.currentSduIndex = s.currentSduIndex ∧ ∀ i, (t.inputSdus i).memBlock = (s.inputSdus i).memBlock ∧
      (t.inputSdus i).sduRemainingSize = (s.inputSdus i).sduRemainingSize := by
  induction refs generalizing s with
  | nil =>
    obtain rfl := Option.some.inj ht
    exact ⟨rfl, fun _ ↦ ⟨rfl, rfl⟩⟩
  | cons index refs ih =>
    rw [List.foldlM_cons, Option.bind_eq_bind, Option.bind_eq_some_iff] at ht
    obtain ⟨u, hu, ht⟩ := ht
    obtain ⟨rfl, -⟩ := listSdu_eq hu
    obtain ⟨hcurrent, hsame⟩ := ih ht
    refine ⟨hcurrent, fun i ↦ ?_⟩
    rw [(hsame i).1, (hsame i).2]
    rcases eq_or_ne i index with rfl | hne
    · rw [setSdu_same]
      exact ⟨rfl, rfl⟩
    · rw [setSdu_other _ _ hne]
      exact ⟨rfl, rfl⟩

/-- Listing SDUs changes nothing that the two passes look at. -/
theorem listSdus_queue (ht : refs.foldlM (fun s index ↦ s.listSdu index) s = some t) :
    t.queue = s.queue ∧ t.queue.map (fun i ↦ (t.inputSdus i).sduRemainingSize) =
      s.queue.map fun i ↦ (s.inputSdus i).sduRemainingSize := by
  obtain ⟨hcurrent, hsame⟩ := listSdus_same ht
  have hqueue : t.queue = s.queue := by
    rw [queue, queue, hcurrent]
    simp only [(hsame _).1]
  refine ⟨hqueue, ?_⟩
  rw [hqueue]
  exact List.map_congr_left fun i _ ↦ (hsame i).2

theorem Referred.listSdus (h : Referred L w s) (hrefs : ∀ i ∈ refs, i < 1024 ∧ (s.inputSdus i).memBlock.isSome)
    (ht : refs.foldlM (fun s index ↦ s.listSdu index) s = some t) :
    Referred (L ++ refs) w t ∧ ∀ mui, t.accounted mui = s.accounted mui := by
  induction refs generalizing L s with
  | nil =>
    obtain rfl := Option.some.inj ht
    rw [List.append_nil]
    exact ⟨h, fun _ ↦ rfl⟩
  | cons index refs ih =>
    obtain ⟨⟨hindex, hmem⟩, hrefs⟩ := List.forall_mem_cons.mp hrefs
    rw [List.foldlM_cons, Option.bind_eq_bind, Option.bind_eq_some_iff] at ht
    obtain ⟨u, hu, ht⟩ := ht
    obtain ⟨hfirst, haccounted⟩ := h.listSdu hindex hmem hu
    obtain ⟨hrest, haccounted'⟩ := ih hfirst (fun i hi ↦ ⟨(hrefs i hi).1, listSdu_isSome (hrefs i hi).2 hu⟩) ht
    rw [List.append_assoc, List.singleton_append] at hrest
    exact ⟨hrest, fun mui ↦ (haccounted' mui).trans (haccounted mui)⟩

theorem endSdu_sameRefs (s : AmTransmitter) (i : ℕ) :
    (s.inputSdus i).SameRefs (s.endSdu.inputSdus i) ∧ s.endSdu.dataConf = s.dataConf := by
  rw [endSdu, freeInSduData]
  split_ifs
  · refine ⟨?_, rfl⟩
    rcases eq_or_ne i s.currentSduIndex with rfl | hne
    · exact (setSdu_same s.currentSduIndex (s.inputSdus s.currentSduIndex).freeData _).symm ▸ ⟨rfl, rfl, rfl, rfl⟩
    · exact (setSdu_other (s.inputSdus s.currentSduIndex).freeData _ hne).symm ▸ .refl _
  · exact ⟨.refl _, rfl⟩

theorem fillLoop_sameRefs (h : s.fillLoop testNumLi fuel f = some (f', t)) :
    (∀ i, (s.inputSdus i).SameRefs (t.inputSdus i)) ∧ t.dataConf = s.dataConf := by
  induction fuel generalizing s f with
  | zero => cases h
  | succ fuel ih =>
    have hend := endSdu_sameRefs s
    rw [fillLoop] at h
    dsimp only at h
    split_ifs at h
    · cases h
      refine ⟨fun i ↦ ?_, rfl⟩
      rcases eq_or_ne i s.currentSduIndex with rfl | hne
      · rw [setSdu_same]
        exact ⟨rfl, rfl, rfl, rfl⟩
      · rw [setSdu_other _ _ hne]
        exact .refl _
    · cases h
      exact ⟨fun i ↦ (hend i).1, (hend 0).2⟩
    · cases h
      exact ⟨fun i ↦ (hend i).1, (hend 0).2⟩
    · obtain ⟨hsame, hconf⟩ := ih h
      exact ⟨fun i ↦ (hend i).1.trans (hsame i), hconf.trans (hend 0).2⟩
    · cases h
      exact ⟨fun i ↦ (hend i).1, (hend 0).2⟩
    · cases h
      exact ⟨fun i ↦ .refl _, rfl⟩

/-- The SDUs that end in a PDU wait for its acknowledgement. -/
theorem Referred.fillLoop (h : Referred L w s) (ht : s.fillLoop testNumLi fuel f = some (f', t))
    (hkept : SdusKept L w' t)
    (hended : ∀ i, (s.inputSdus i).memBlock.isSome → (t.inputSdus i).memBlock = none → i ∈ L) :
    Referred L w' t ∧ ∀ mui, t.accounted mui = s.accounted mui := by
  obtain ⟨hsame, hconf⟩ := fillLoop_sameRefs ht
  refine ⟨⟨hkept, fun i ↦ ?_, fun i hpos hnone ↦ ?_⟩, fun mui ↦ ?_⟩
  · rw [(hsame i).nbPdus_eq, (hsame i).nbPdusAck_eq]
    exact h.refs_eq i
  · rcases hmem : (s.inputSdus i).memBlock with _ | data
    · rw [(hsame i).sduSize_eq] at hpos
      exact h.pending i hpos hmem
    · exact hended i (by rw [hmem]; rfl) hnone
  · rw [accounted, accounted, hconf]
    exact congrArg (_ + Finset.card ·) (unconfirmed_congr (fun i ↦ ⟨(hsame i).sduSize_eq, (hsame i).mui_eq⟩) mui)

end Segmentation

end AmTransmitter

end EdgeSlice.Rlc
