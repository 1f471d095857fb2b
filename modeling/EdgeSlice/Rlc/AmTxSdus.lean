import EdgeSlice.RingQueue
import EdgeSlice.Rlc.AmConfirmation
import EdgeSlice.Rlc.AmRetransmit

namespace EdgeSlice.Rlc

open Function

/-- What a slot of the SDU buffer keeps. -/
structure AmTxSdu.Kept (sdu : AmTxSdu) : Prop where
  ended : sdu.memBlock = none → sdu.sduRemainingSize = 0
  waiting : ∀ data, sdu.memBlock = some data → data.length = sdu.sduSize ∧
    sdu.sduSegmentedSize + sdu.sduRemainingSize = sdu.sduSize ∧ 0 < sdu.sduRemainingSize ∧
    sdu.transmittedSuccessfully = false
  nbPdus_lt : sdu.nbPdus.toNat < rlcAmMaxSduFragments
  free : sdu.sduSize = 0 → sdu.nbPdus = 0

theorem AmTxSdu.Kept.zero (b : Bool) : { AmTxSdu.zero with transmittedSuccessfully := b }.Kept where
  ended _ := rfl
  waiting data h := by cases h
  nbPdus_lt := Nat.zero_lt_succ _
  free _ := rfl

theorem AmTxSdu.Kept.ofReq (req : AmDataReq) : (AmTxSdu.ofReq req).Kept where
  ended h := by cases h
  waiting data h := by
    cases h
    exact ⟨rfl, Nat.zero_add _, List.length_pos_iff.mpr req.data_ne_nil, rfl⟩
  nbPdus_lt := Nat.zero_lt_succ _
  free _ := rfl

theorem AmTxSdu.Kept.freeData {sdu : AmTxSdu} (h : sdu.Kept) : sdu.freeData.Kept where
  ended _ := rfl
  waiting _ hdata := by cases hdata
  nbPdus_lt := h.nbPdus_lt
  free := h.free

theorem AmTxSdu.Kept.size_pos {sdu : AmTxSdu} (h : sdu.Kept) (hmem : sdu.memBlock.isSome) : 0 < sdu.sduSize := by
  obtain ⟨data, hdata⟩ := Option.isSome_iff_exists.mp hmem
  obtain ⟨-, hsum, hpos, -⟩ := h.waiting data hdata
  omega

namespace AmTransmitter

variable {s t : AmTransmitter} {L L' : List ℕ} {w : List (ℕ × Bytes)} {i j index : ℕ} {sdu : AmTxSdu}

/-- The SDU in a slot, as long as it is not fully segmented. -/
def waitingAt (s : AmTransmitter) (i : ℕ) : Option (ℕ × Bytes) :=
  (s.inputSdus i).memBlock.map fun data ↦ ((s.inputSdus i).mui, data)

/-- The bytes that remain of all SDUs. -/
def remaining (inputSdus : ℕ → AmTxSdu) : ℕ := ∑ i ∈ Finset.range 1024, (inputSdus i).sduRemainingSize

/-- The slots of SDUs that have not been confirmed. -/
def occupied (inputSdus : ℕ → AmTxSdu) : Finset ℕ := (Finset.range 1024).filter fun i ↦ 0 < (inputSdus i).sduSize

/-- The slots of SDUs that are not fully segmented. -/
def unsegmented (inputSdus : ℕ → AmTxSdu) : Finset ℕ :=
  (Finset.range 1024).filter fun i ↦ (inputSdus i).memBlock.isSome = true

/-- What the SDU buffer keeps; `L` are the references of PDUs to SDUs that may still be confirmed, and the SDUs
in `w` are not fully segmented. -/
structure SdusKept (L : List ℕ) (w : List (ℕ × Bytes)) (s : AmTransmitter) : Prop where
  slots : ∀ i, (s.inputSdus i).Kept
  ring : ∃ gap, RingQueue.Holds 1024 s.waitingAt s.currentSduIndex s.nextSduIndex gap w
  begun : ∀ i, (s.inputSdus i).memBlock.isSome → i ≠ s.currentSduIndex → (s.inputSdus i).sduSegmentedSize = 0
  nbSdu_eq : s.nbSdu = (occupied s.inputSdus).card
  nbSduNoSegmented_eq : s.nbSduNoSegmented = (unsegmented s.inputSdus).card
  refs : ∀ i, (s.inputSdus i).nbPdusAck.toNat + L.count i ≤ (s.inputSdus i).nbPdus.toNat

theorem setSdu_same (index : ℕ) (sdu : AmTxSdu) (s : AmTransmitter) :
    (s.setSdu index sdu).inputSdus index = sdu := update_self _ _ _

theorem setSdu_other (sdu : AmTxSdu) (s : AmTransmitter) (hne : i ≠ index) :
    (s.setSdu index sdu).inputSdus i = s.inputSdus i := update_of_ne hne _ _

/-- What holds of the slots that are not written and of the one that is holds of all. -/
theorem forall_setSdu {P : ℕ → AmTxSdu → Prop} (hrest : ∀ i, i ≠ index → P i (s.inputSdus i)) (hsdu : P index sdu) :
    ∀ i, P i ((s.setSdu index sdu).inputSdus i) := by
  intro i
  rcases eq_or_ne i index with rfl | hne
  · rw [setSdu_same]
    exact hsdu
  · rw [setSdu_other _ _ hne]
    exact hrest i hne

theorem remaining_update (sdus : ℕ → AmTxSdu) (hindex : index < 1024) (sdu : AmTxSdu) :
    remaining (update sdus index sdu) + (sdus index).sduRemainingSize = remaining sdus + sdu.sduRemainingSize :=
  RingQueue.sum_update hindex sdus AmTxSdu.sduRemainingSize sdu

theorem occupied_update (sdus : ℕ → AmTxSdu) (hindex : index < 1024) (sdu : AmTxSdu) :
    (occupied (update sdus index sdu)).card + (if 0 < (sdus index).sduSize then 1 else 0) =
      (occupied sdus).card + (if 0 < sdu.sduSize then 1 else 0) :=
  RingQueue.card_update hindex sdus (fun sdu ↦ 0 < sdu.sduSize) sdu

theorem unsegmented_update (sdus : ℕ → AmTxSdu) (hindex : index < 1024) (sdu : AmTxSdu) :
    (unsegmented (update sdus index sdu)).card + (if (sdus index).memBlock.isSome = true then 1 else 0) =
      (unsegmented sdus).card + (if sdu.memBlock.isSome = true then 1 else 0) :=
  RingQueue.card_update hindex sdus (fun sdu ↦ sdu.memBlock.isSome = true) sdu

/-- The counters are right again when a slot is written that is occupied as before, or newly. -/
theorem occupied_card {sdus : ℕ → AmTxSdu} {n : ℤ} (hindex : index < 1024) (hn : n = (occupied sdus).card)
    (sdu : AmTxSdu) (change : ℤ) (hchange : (if 0 < (sdus index).sduSize then 1 else 0) + change =
      if 0 < sdu.sduSize then 1 else 0) : n + change = (occupied (update sdus index sdu)).card := by
  have hcard := occupied_update sdus hindex sdu
  split_ifs at hcard hchange <;> omega

theorem unsegmented_card {sdus : ℕ → AmTxSdu} {n : ℤ} (hindex : index < 1024) (hn : n = (unsegmented sdus).card)
    (sdu : AmTxSdu) (change : ℤ) (hchange : (if (sdus index).memBlock.isSome = true then 1 else 0) + change =
      if sdu.memBlock.isSome = true then 1 else 0) : n + change = (unsegmented (update sdus index sdu)).card := by
  have hcard := unsegmented_update sdus hindex sdu
  split_ifs at hcard hchange <;> omega

namespace SdusKept

theorem current_lt (h : SdusKept L w s) : s.currentSduIndex < 1024 := by
  obtain ⟨gap, hring⟩ := h.ring
  exact hring.first_lt

theorem next_lt (h : SdusKept L w s) : s.nextSduIndex < 1024 := by
  obtain ⟨gap, hring⟩ := h.ring
  exact hring.next_lt

theorem mono (h : SdusKept L w s) (hcount : ∀ i, L'.count i ≤ L.count i) : SdusKept L' w s :=
  { h with refs := fun i ↦ (Nat.add_le_add_left (hcount i) _).trans (h.refs i) }

/-- A slot whose SDU stays is written. -/
theorem set (h : SdusKept L w s) (hindex : index < 1024) (hsdu : sdu.Kept)
    (hmem : sdu.memBlock = (s.inputSdus index).memBlock) (hmui : sdu.mui = (s.inputSdus index).mui)
    (hsize : sdu.sduSize = (s.inputSdus index).sduSize)
    (hbegun : sdu.memBlock.isSome → index ≠ s.currentSduIndex → sdu.sduSegmentedSize = 0)
    (hrefs : sdu.nbPdusAck.toNat + L'.count index ≤ sdu.nbPdus.toNat)
    (hcount : ∀ i, i ≠ index → L'.count i ≤ L.count i) : SdusKept L' w (s.setSdu index sdu) where
  slots := forall_setSdu (P := fun _ sdu ↦ sdu.Kept) (fun i _ ↦ h.slots i) hsdu
  ring := by
    obtain ⟨gap, hring⟩ := h.ring
    refine ⟨gap, hring.congr fun i _ ↦ ?_⟩
    rcases eq_or_ne i index with rfl | hne
    · rw [waitingAt, setSdu_same, hmem, hmui]
      rfl
    · rw [waitingAt, setSdu_other _ _ hne]
      rfl
  begun := by
    have hall := forall_setSdu (s := s)
      (P := fun i sdu ↦ sdu.memBlock.isSome → i ≠ s.currentSduIndex → sdu.sduSegmentedSize = 0)
      (fun i _ ↦ h.begun i) hbegun
    exact hall
  nbSdu_eq := by
    have hcard := occupied_card hindex h.nbSdu_eq sdu 0 (by rw [hsize, Int.add_zero])
    rwa [Int.add_zero] at hcard
  nbSduNoSegmented_eq := by
    have hcard := unsegmented_card hindex h.nbSduNoSegmented_eq sdu 0 (by rw [hmem, Int.add_zero])
    rwa [Int.add_zero] at hcard
  refs := forall_setSdu (P := fun i sdu ↦ sdu.nbPdusAck.toNat + L'.count i ≤ sdu.nbPdus.toNat)
    (fun i hne ↦ (Nat.add_le_add_left (hcount i hne) _).trans (h.refs i)) hrefs

theorem init (pollPdu pollByte msDuration : ℕ) : SdusKept [] [] (start pollPdu pollByte msDuration) where
  slots _ := AmTxSdu.Kept.zero false
  ring := ⟨0, RingQueue.Holds.empty (by decide)⟩
  begun _ h := by cases h
  nbSdu_eq := by
    have hnone : occupied (fun _ ↦ AmTxSdu.zero) = ∅ := Finset.filter_false_of_mem fun i _ ↦ Nat.lt_irrefl 0
    exact congrArg (fun slots : Finset ℕ ↦ (slots.card : ℤ)) hnone.symm
  nbSduNoSegmented_eq := by
    have hnone : unsegmented (fun _ ↦ AmTxSdu.zero) = ∅ :=
      Finset.filter_false_of_mem fun i _ ↦ Bool.false_ne_true
    exact congrArg (fun slots : Finset ℕ ↦ (slots.card : ℤ)) hnone.symm
  refs _ := le_rfl

section Requests

/-- An SDU is accepted into a slot whose SDU has been confirmed. -/
theorem dataReq (req : AmDataReq) (h : SdusKept L w s)
    (hmem : (s.inputSdus s.nextSduIndex).memBlock = none)
    (hfull : (s.nextSduIndex + 1) % rlcAmSduControlBufferSize ≠ s.currentSduIndex)
    (hfree : (s.inputSdus s.nextSduIndex).sduSize = 0) :
    SdusKept L (w ++ [(req.mui, req.data)]) (s.dataReq req) ∧
      remaining (s.dataReq req).inputSdus = remaining s.inputSdus + req.data.length ∧
      (s.dataReq req).sduBufferOccupancy = s.sduBufferOccupancy + req.data.length := by
  have hnext := h.next_lt
  have hpos : 0 < (AmTxSdu.ofReq req).sduSize := List.length_pos_iff.mpr req.data_ne_nil
  have hunused : L.count s.nextSduIndex = 0 := by
    have hrefs := h.refs s.nextSduIndex
    rw [(h.slots _).free hfree] at hrefs
    exact Nat.eq_zero_of_le_zero ((Nat.le_add_left _ _).trans hrefs)
  rw [AmTransmitter.dataReq, if_pos ⟨Option.isNone_iff_eq_none.mpr hmem, hfull⟩]
  refine ⟨⟨?_, ?_, ?_, ?_, ?_, ?_⟩, ?_, rfl⟩
  · exact forall_setSdu (P := fun _ sdu ↦ sdu.Kept) (fun i _ ↦ h.slots i) (.ofReq req)
  · obtain ⟨gap, hring⟩ := h.ring
    refine ⟨gap, (hring.push hfull (req.mui, req.data)).congr fun i _ ↦ ?_⟩
    rcases eq_or_ne i s.nextSduIndex with rfl | hne
    · rw [update_self, waitingAt, setSdu_same]
      rfl
    · rw [update_of_ne hne, waitingAt, setSdu_other _ _ hne]
      rfl
  · exact forall_setSdu (s := s)
      (P := fun i sdu ↦ sdu.memBlock.isSome → i ≠ s.currentSduIndex → sdu.sduSegmentedSize = 0)
      (fun i _ ↦ h.begun i) fun _ _ ↦ rfl
  · exact occupied_card hnext h.nbSdu_eq _ 1 (by rw [hfree, if_neg (Nat.lt_irrefl 0), if_pos hpos]; rfl)
  · exact unsegmented_card hnext h.nbSduNoSegmented_eq _ 1 (by rw [hmem]; rfl)
  · refine forall_setSdu (s := s) (P := fun i sdu ↦ sdu.nbPdusAck.toNat + L.count i ≤ sdu.nbPdus.toNat)
      (fun i _ ↦ h.refs i) ?_
    rw [hunused]
    exact Nat.zero_le _
  · have hsum := remaining_update s.inputSdus hnext (.ofReq req)
    rw [(h.slots _).ended hmem, Nat.add_zero] at hsum
    exact hsum

end Requests

end SdusKept

/-- Between `s` and `t` only the SDU buffer has been written, and what belongs to it. -/
def OnlySdus (s t : AmTransmitter) : Prop :=
  ∃ sdus current nbSdu nbSduNoSegmented dataConf,
    t = { s with
      inputSdus := sdus
      currentSduIndex := current
      nbSdu := nbSdu
      nbSduNoSegmented := nbSduNoSegmented
      dataConf := dataConf }

theorem OnlySdus.refl (s : AmTransmitter) : s.OnlySdus s :=
  ⟨s.inputSdus, s.currentSduIndex, s.nbSdu, s.nbSduNoSegmented, s.dataConf, rfl⟩

theorem OnlySdus.setSdu (index : ℕ) (sdu : AmTxSdu) (s : AmTransmitter) : s.OnlySdus (s.setSdu index sdu) :=
  ⟨_, s.currentSduIndex, s.nbSdu, s.nbSduNoSegmented, s.dataConf, rfl⟩

theorem OnlySdus.trans {u : AmTransmitter} (h : s.OnlySdus t) (h' : t.OnlySdus u) : s.OnlySdus u := by
  obtain ⟨_, _, _, _, _, rfl⟩ := h
  obtain ⟨sdus, current, nbSdu, nbSduNoSegmented, dataConf, rfl⟩ := h'
  exact ⟨sdus, current, nbSdu, nbSduNoSegmented, dataConf, rfl⟩

theorem OnlySdus.txDataPduBuffer_eq (h : s.OnlySdus t) : t.txDataPduBuffer = s.txDataPduBuffer := by
  obtain ⟨_, _, _, _, _, rfl⟩ := h
  rfl

section Segmentation

variable {f f' : AmFilling} {testNumLi fuel n : ℕ} {indices : List ℕ}

theorem listSdu_eq (h : s.listSdu index = some t) :
    t = s.setSdu index (s.inputSdus index).list ∧
      (s.inputSdus index).list.nbPdus.toNat < rlcAmMaxSduFragments := by
  simp only [listSdu] at h
  split_ifs at h with hfew
  exact ⟨(Option.some.inj h).symm, hfew⟩

theorem list_nbPdus (h : sdu.Kept) : sdu.list.nbPdus.toNat = sdu.nbPdus.toNat + 1 := by
  have hlt : sdu.nbPdus.toNat < 32 := h.nbPdus_lt
  rw [AmTxSdu.list, UInt8.toNat_add, UInt8.toNat_one]
  omega

theorem SdusKept.listSdu (h : SdusKept L w s) (hindex : index < 1024)
    (hmem : (s.inputSdus index).memBlock.isSome) (ht : s.listSdu index = some t) :
    SdusKept (L ++ [index]) w t := by
  obtain ⟨rfl, hfew⟩ := listSdu_eq ht
  have hold := h.slots index
  have hadd := list_nbPdus hold
  refine h.set hindex ⟨hold.ended, hold.waiting, hfew, fun hzero ↦ ?_⟩ rfl rfl rfl (h.begun index) ?_ ?_
  · exact absurd hzero (hold.size_pos hmem).ne'
  · have hrefs := h.refs index
    have hack : (s.inputSdus index).list.nbPdusAck = (s.inputSdus index).nbPdusAck := rfl
    rw [List.count_append, List.count_singleton_self, hadd, hack]
    omega
  · intro i hne
    rw [List.count_append, List.count_eq_zero_of_not_mem fun hmem ↦ hne (List.mem_singleton.mp hmem)]
    exact le_rfl

/-- The PDU lists some SDUs. -/
theorem SdusKept.listSdus (h : SdusKept L w s)
    (hindices : ∀ i ∈ indices, i < 1024 ∧ (s.inputSdus i).memBlock.isSome)
    (ht : indices.foldlM (fun s index ↦ s.listSdu index) s = some t) :
    SdusKept (L ++ indices) w t ∧ remaining t.inputSdus = remaining s.inputSdus ∧ s.OnlySdus t := by
  induction indices generalizing L s with
  | nil =>
    obtain rfl := Option.some.inj ht
    rw [List.append_nil]
    exact ⟨h, rfl, .refl s⟩
  | cons index indices ih =>
    obtain ⟨⟨hindex, hmem⟩, hindices⟩ := List.forall_mem_cons.mp hindices
    rw [List.foldlM_cons, Option.bind_eq_bind, Option.bind_eq_some_iff] at ht
    obtain ⟨u, hu, ht⟩ := ht
    have hkept := h.listSdu hindex hmem hu
    obtain ⟨rfl, -⟩ := listSdu_eq hu
    have hstill : ∀ i ∈ indices, i < 1024 ∧ ((s.setSdu index
        (s.inputSdus index).list).inputSdus i).memBlock.isSome := by
      intro i hi
      obtain ⟨hlt, hsome⟩ := hindices i hi
      refine ⟨hlt, ?_⟩
      rcases eq_or_ne i index with rfl | hne
      · rw [setSdu_same]
        exact hsome
      · rw [setSdu_other _ _ hne]
        exact hsome
    obtain ⟨hkept', hremaining, honly⟩ := ih hkept hstill ht
    have hsum := remaining_update s.inputSdus hindex
      (s.inputSdus index).list
    refine ⟨?_, hremaining.trans (Nat.add_right_cancel hsum), (OnlySdus.setSdu _ _ s).trans honly⟩
    rwa [List.append_assoc, List.singleton_append] at hkept'

/-- `current_sdu_index` moves on behind a fully segmented SDU. -/
theorem SdusKept.skip (h : SdusKept L w s) (hmem : (s.inputSdus s.currentSduIndex).memBlock = none) :
    SdusKept L w { s with currentSduIndex := (s.currentSduIndex + 1) % rlcAmSduControlBufferSize } where
  slots := h.slots
  ring := by
    obtain ⟨gap, hring⟩ := h.ring
    have hempty : s.waitingAt s.currentSduIndex = none := by rw [waitingAt, hmem, Option.map_none]
    exact hring.skip hempty
  begun i hsome _ := by
    refine h.begun i hsome ?_
    rintro rfl
    rw [hmem] at hsome
    cases hsome
  nbSdu_eq := h.nbSdu_eq
  nbSduNoSegmented_eq := h.nbSduNoSegmented_eq
  refs := h.refs

/-- The current SDU is fully segmented. -/
theorem SdusKept.endSdu (h : SdusKept L w s) (hmem : (s.inputSdus s.currentSduIndex).memBlock.isSome) :
    ∃ sdu rest, w = sdu :: rest ∧ SdusKept L rest s.endSdu ∧ s.OnlySdus s.endSdu ∧
      remaining s.endSdu.inputSdus + (s.inputSdus s.currentSduIndex).sduRemainingSize = remaining s.inputSdus := by
  have hcurrent := h.current_lt
  obtain ⟨gap, hring⟩ := h.ring
  obtain ⟨data, hdata⟩ := Option.isSome_iff_exists.mp hmem
  have hwaiting : s.waitingAt s.currentSduIndex = some ((s.inputSdus s.currentSduIndex).mui, data) := by
    rw [waitingAt, hdata, Option.map_some]
  obtain ⟨rfl, rest, rfl⟩ := hring.head hwaiting
  have hend : s.endSdu = { { s with nbSduNoSegmented := s.nbSduNoSegmented - 1 }.setSdu s.currentSduIndex
      (s.inputSdus s.currentSduIndex).freeData with
        currentSduIndex := (s.currentSduIndex + 1) % rlcAmSduControlBufferSize } := by
    have hle : s.currentSduIndex ≤ rlcAmSduControlBufferSize := hcurrent.le
    rw [AmTransmitter.endSdu, freeInSduData, if_pos ⟨hle, hmem⟩]
  have hsum := remaining_update s.inputSdus hcurrent (s.inputSdus s.currentSduIndex).freeData
  have hzero : (s.inputSdus s.currentSduIndex).freeData.sduRemainingSize = 0 := rfl
  rw [hzero, Nat.add_zero] at hsum
  refine ⟨_, rest, rfl, ⟨?_, ⟨0, ?_⟩, ?_, ?_, ?_, ?_⟩, ?_, ?_⟩
  · rw [hend]
    exact forall_setSdu (P := fun _ sdu ↦ sdu.Kept) (fun i _ ↦ h.slots i) (h.slots _).freeData
  · rw [hend]
    refine hring.pop.congr fun i _ ↦ ?_
    rcases eq_or_ne i s.currentSduIndex with rfl | hne
    · rw [update_self, waitingAt]
      exact congrArg (Option.map _) (congrArg AmTxSdu.memBlock (setSdu_same _ _ _))
    · rw [update_of_ne hne, waitingAt]
      exact congrArg (fun sdu : AmTxSdu ↦ sdu.memBlock.map (sdu.mui, ·)) (setSdu_other _ _ hne)
  · rw [hend]
    intro i
    have hslots := forall_setSdu (s := s)
      (P := fun i sdu ↦ sdu.memBlock.isSome → i ≠ s.currentSduIndex ∧ sdu.sduSegmentedSize = 0)
      (fun i hne hsome ↦ ⟨hne, h.begun i hsome hne⟩)
      (fun hsome : (s.inputSdus s.currentSduIndex).freeData.memBlock.isSome ↦ by cases hsome)
    exact fun hsome _ ↦ (hslots i hsome).2
  · rw [hend]
    have hcard := occupied_card hcurrent h.nbSdu_eq
      (s.inputSdus s.currentSduIndex).freeData 0 (Int.add_zero _)
    rwa [Int.add_zero] at hcard
  · rw [hend]
    exact unsegmented_card hcurrent h.nbSduNoSegmented_eq
      (s.inputSdus s.currentSduIndex).freeData (-1) (by rw [hmem]; rfl)
  · rw [hend]
    exact forall_setSdu (s := s) (P := fun i sdu ↦ sdu.nbPdusAck.toNat + L.count i ≤ sdu.nbPdus.toNat)
      (fun i _ ↦ h.refs i) (h.refs _)
  · rw [hend]
    exact ⟨_, _, s.nbSdu, _, s.dataConf, rfl⟩
  · rw [hend]
    exact hsum

/-- A part of the current SDU is put into a PDU. -/
theorem SdusKept.advance (h : SdusKept L w s) (hmem : (s.inputSdus s.currentSduIndex).memBlock.isSome)
    (hn : n < (s.inputSdus s.currentSduIndex).sduRemainingSize) :
    SdusKept L w (s.setSdu s.currentSduIndex ((s.inputSdus s.currentSduIndex).advance n)) ∧
      remaining (s.setSdu s.currentSduIndex ((s.inputSdus s.currentSduIndex).advance n)).inputSdus + n =
        remaining s.inputSdus := by
  have hold := h.slots s.currentSduIndex
  refine ⟨h.set h.current_lt ⟨fun hnone ↦ ?_, fun data hdata ↦ ?_, hold.nbPdus_lt, hold.free⟩ rfl rfl rfl
    (fun _ hne ↦ absurd rfl hne) (h.refs _) fun _ _ ↦ le_rfl, ?_⟩
  · have hnone' : (s.inputSdus s.currentSduIndex).memBlock = none := hnone
    rw [hnone'] at hmem
    cases hmem
  · obtain ⟨hlength, hsum, -, htx⟩ := hold.waiting data hdata
    refine ⟨hlength, ?_, Nat.sub_pos_of_lt hn, htx⟩
    rw [AmTxSdu.advance]
    dsimp only
    omega
  · have hsum : remaining (s.setSdu s.currentSduIndex ((s.inputSdus s.currentSduIndex).advance n)).inputSdus +
        (s.inputSdus s.currentSduIndex).sduRemainingSize =
          remaining s.inputSdus + ((s.inputSdus s.currentSduIndex).sduRemainingSize - n) :=
      remaining_update s.inputSdus h.current_lt _
    omega

theorem addSdu_fields (testNumLi : ℕ) (sdu : AmTxSdu) (f : AmFilling) :
    (f.addSdu testNumLi sdu).bufferOccupancy = f.bufferOccupancy - sdu.sduRemainingSize ∧
      (f.addSdu testNumLi sdu).pduRemainingSize =
        f.pduRemainingSize - (sdu.sduRemainingSize + (f.liLengthInBytes ^^^ 3)) ∧
      (f.addSdu testNumLi sdu).payloadSize = f.payloadSize + sdu.sduRemainingSize := by
  simp only [AmFilling.addSdu, Filling.writeLi]
  split_ifs <;> exact ⟨rfl, rfl, rfl⟩

/-- What the pass that fills a PDU keeps: the SDUs are taken in the order in which they wait, and the payload
stays within the PDU. -/
theorem SdusKept.fillLoop (h : SdusKept L w s) (hoccupancy : f.bufferOccupancy = remaining s.inputSdus)
    (ht : s.fillLoop testNumLi fuel f = some (f', t)) :
    ∃ done w', w = done ++ w' ∧ SdusKept L w' t ∧ f'.bufferOccupancy = remaining t.inputSdus ∧ s.OnlySdus t ∧
      f'.payloadSize + f'.pduRemainingSize ≤ f.payloadSize + f.pduRemainingSize := by
  induction fuel generalizing s f w with
  | zero => cases ht
  | succ fuel ih =>
    rw [AmTransmitter.fillLoop] at ht
    dsimp only at ht
    by_cases hmem : (s.inputSdus s.currentSduIndex).memBlock.isSome
    · rw [if_pos hmem] at ht
      obtain ⟨sdu, rest, rfl, hkept, honly, hsum⟩ := h.endSdu hmem
      -- The current SDU ends in the PDU.
      have hended (x : ℕ) (hx : x = (s.inputSdus s.currentSduIndex).sduRemainingSize) :
          f.bufferOccupancy - x = remaining s.endSdu.inputSdus := by
        rw [hoccupancy, ← hsum, hx, Nat.add_sub_cancel]
      split_ifs at ht with hlarger hequal hsmaller hlimit
      · cases ht
        obtain ⟨hkept', hsum'⟩ := h.advance hmem hlarger
        refine ⟨[], _, rfl, hkept', ?_, .setSdu _ _ _, ?_⟩
        · exact Nat.sub_eq_of_eq_add (hoccupancy.trans hsum'.symm)
        · exact Nat.le_of_eq (Nat.add_zero _)
      · cases ht
        refine ⟨[sdu], rest, rfl, hkept, hended _ hequal.symm, honly, ?_⟩
        exact Nat.le_of_eq (Nat.add_zero _)
      · cases ht
        refine ⟨[sdu], rest, rfl, hkept, hended _ rfl, honly, ?_⟩
        refine (Nat.le_of_eq (Nat.add_zero _)).trans (Nat.add_le_add_left ?_ _)
        omega
      · obtain ⟨hocc, hsize, hpayload⟩ := addSdu_fields testNumLi (s.inputSdus s.currentSduIndex) f
        obtain ⟨done, w', rfl, hkept', hocc', honly', hle⟩ := ih hkept (hocc.trans (hended _ rfl)) ht
        refine ⟨sdu :: done, w', rfl, hkept', hocc', honly.trans honly', hle.trans ?_⟩
        rw [hsize, hpayload]
        omega
      · cases ht
        refine ⟨[sdu], rest, rfl, hkept, hended _ rfl, honly, Nat.le_of_eq ?_⟩
        change f.payloadSize + (s.inputSdus s.currentSduIndex).sduRemainingSize +
          (f.pduRemainingSize - (s.inputSdus s.currentSduIndex).sduRemainingSize) = _
        omega
    · rw [if_neg hmem] at ht
      cases ht
      exact ⟨[], w, rfl, h, hoccupancy, .refl _, le_rfl⟩

end Segmentation

end AmTransmitter

end EdgeSlice.Rlc
