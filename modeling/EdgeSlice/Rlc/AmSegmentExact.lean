import EdgeSlice.Rlc.AmPdu
import EdgeSlice.Rlc.AmTxOnce
import EdgeSlice.Rlc.UmSegmenters

/-! What `rlc_am_get_data_pdu_infos` reads from the PDUs that `rlc_am_segment_10` builds. -/

namespace EdgeSlice.Rlc

open BitField ByteMemory Function Segmentation

namespace AmPduInfo

variable {li li' : ℕ} {b : UInt8} {lis acc : List ℕ} {fuel : ℕ}

theorem li1_read (more : Bool) (h : li < 2048) (hb : b.toNat / 16 = li % 16) :
    ((eLiB1 more li).toNat <<< 4) &&& 0x07F0 ||| ((b >>> 4) &&& 0x0F).toNat = li := by
  have hmore := Bool.toNat_le more
  have hlow : ((b >>> 4) &&& 0x0F).toNat = li % 16 := by
    have hfield : ((b >>> 4) &&& 0x0F).toNat = b.toNat / 16 % 16 :=
      shifted_toNat b (k := 4) (w := 4) (by decide) (by decide)
    rw [hfield, hb, Nat.mod_mod]
  have hhigh : ((eLiB1 more li).toNat <<< 4) &&& 0x07F0 = (li / 16) <<< 4 := by
    have hmask : 0x07F0 = (2 ^ 7 - 1) <<< 4 := rfl
    rw [hmask, ← Nat.shiftLeft_and_distrib, Nat.and_two_pow_sub_one_eq_mod, eLiB1_toNat more h]
    exact congrArg (· <<< 4) (by omega)
  rw [hhigh, hlow, ← Nat.shiftLeft_add_eq_or_of_lt (Nat.mod_lt _ (by decide)), Nat.shiftLeft_eq]
  omega

theorem li2_read (li : ℕ) (more : Bool) (h : li' < 2048) :
    ((eLiB2' (eLiB2 li) more li').toNat <<< 8) &&& 0x0700 ||| (eLiB3 li').toNat = li' := by
  have hmore := Bool.toNat_le more
  have hhigh : ((eLiB2' (eLiB2 li) more li').toNat <<< 8) &&& 0x0700 = (li' / 256) <<< 8 := by
    have hmask : 0x0700 = (2 ^ 3 - 1) <<< 8 := rfl
    rw [hmask, ← Nat.shiftLeft_and_distrib, Nat.and_two_pow_sub_one_eq_mod, eLiB2'_toNat li more h]
    exact congrArg (· <<< 8) (by omega)
  rw [hhigh, eLiB3_toNat, ← Nat.shiftLeft_add_eq_or_of_lt (Nat.mod_lt _ (by decide)), Nat.shiftLeft_eq]
  omega

theorem e1_read (more : Bool) (h : li < 2048) : eLiB1 more li &&& 0x80 ≠ 0 ↔ more = true := by
  have hmore := Bool.toNat_le more
  have hbit : eLiB1 more li &&& 0x80 ≠ 0 ↔ (eLiB1 more li).toNat / 2 ^ 7 % 2 = 1 :=
    bit_ne_zero _ (k := 7) (by decide)
  have hvalue : (eLiB1 more li).toNat / 2 ^ 7 % 2 = more.toNat := by
    rw [eLiB1_toNat more h]
    omega
  rw [hbit, hvalue]
  exact Bool.toNat_eq_one

theorem e2_read (li : ℕ) (more : Bool) (h : li' < 2048) :
    eLiB2' (eLiB2 li) more li' &&& 0x08 ≠ 0 ↔ more = true := by
  have hmore := Bool.toNat_le more
  have hbit : eLiB2' (eLiB2 li) more li' &&& 0x08 ≠ 0 ↔ (eLiB2' (eLiB2 li) more li').toNat / 2 ^ 3 % 2 = 1 :=
    bit_ne_zero _ (k := 3) (by decide)
  have hvalue : (eLiB2' (eLiB2 li) more li').toNat / 2 ^ 3 % 2 = more.toNat := by
    rw [eLiB2'_toNat li more h]
    omega
  rw [hbit, hvalue]
  exact Bool.toNat_eq_one

/-- The parser reads the length indicators that were written. -/
theorem readLis_encodeLis (tail : Bytes) (hne : lis ≠ []) (hlis : ∀ li ∈ lis, li < 2048)
    (hfuel : lis.length ≤ fuel) (hmax : acc.length + lis.length ≤ rlcAmMaxSduInPdu) :
    readLis fuel (encodeLis lis ++ tail) acc = some (acc ++ lis) := by
  induction lis using encodeLis.induct generalizing fuel acc with
  | case1 => exact absurd rfl hne
  | case2 li =>
    obtain ⟨fuel, rfl⟩ := Nat.exists_eq_add_one.mpr hfuel
    have hli := hlis li (List.mem_singleton_self li)
    have he1 : ¬eLiB1 false li &&& 0x80 ≠ 0 := (e1_read false hli).not.mpr Bool.false_ne_true
    have hb2 : (eLiB2 li).toNat / 16 = li % 16 := by
      rw [eLiB2_toNat]
      omega
    have hnum : ¬(acc ++ [li]).length > rlcAmMaxSduInPdu := by
      rw [List.length_append]
      exact Nat.not_lt.mpr hmax
    simp only [encodeLis, List.cons_append, List.nil_append, readLis, List.getD_cons_zero,
      List.getD_cons_succ, li1_read false hli hb2, if_neg hnum, if_neg he1]
  | case3 li li' lis ih =>
    obtain ⟨fuel, rfl⟩ := Nat.exists_eq_add_one.mpr (Nat.lt_of_lt_of_le (Nat.succ_pos _) hfuel)
    have hli := hlis li List.mem_cons_self
    have hli' := hlis li' (List.mem_cons_of_mem _ List.mem_cons_self)
    have he1 := (e1_read true hli).mpr rfl
    have hb2 : (eLiB2' (eLiB2 li) (lis ≠ []) li').toNat / 16 = li % 16 := by
      have hmore := Bool.toNat_le (decide (lis ≠ []))
      rw [eLiB2'_toNat li _ hli']
      omega
    rw [List.length_cons, List.length_cons] at hmax hfuel
    have hnum : ¬(acc ++ [li]).length > rlcAmMaxSduInPdu := by
      rw [List.length_append, List.length_singleton]
      omega
    have hnum' : ¬(acc ++ [li] ++ [li']).length > rlcAmMaxSduInPdu := by
      rw [List.length_append, List.length_append, List.length_singleton, List.length_singleton]
      omega
    simp only [encodeLis, List.cons_append, readLis, List.getD_cons_zero, List.getD_cons_succ,
      li1_read true hli hb2, if_neg hnum, if_pos he1, li2_read li _ hli', if_neg hnum', e2_read li _ hli',
      List.drop_succ_cons, List.drop_zero]
    by_cases hlast : lis = []
    · subst hlast
      simp
    · have hlis' : ∀ l ∈ lis, l < 2048 := fun l hl ↦
        hlis l (List.mem_cons_of_mem _ (List.mem_cons_of_mem _ hl))
      rw [if_pos (decide_eq_true hlast), ih hlast hlis' (by omega) (by
        rw [List.length_append, List.length_append, List.length_singleton, List.length_singleton]
        omega)]
      simp only [List.append_assoc, List.cons_append, List.nil_append]

theorem b1_fields (fiFirst fiLast li poll : Bool) (high : Fin 4) :
    let b1 := (0x80 : UInt8) ||| (if poll then (0x20 : UInt8) else 0) |||
      (UmEntity.framingInfo fiFirst fiLast <<< 3) ||| (if li then (0x04 : UInt8) else 0) ||| UInt8.ofNat high
    b1 >>> 7 ≠ 0 ∧ ¬(b1 >>> 6) &&& 0x01 ≠ 0 ∧ (b1 >>> 3) &&& 0x03 = UmEntity.framingInfo fiFirst fiLast ∧
      ((b1 >>> 2) &&& 0x01 ≠ 0 ↔ li = true) ∧ (b1 &&& 0x03).toNat = high := by
  revert fiFirst fiLast li poll high
  decide

/-- The fields in the first byte of an AMD PDU. -/
theorem pduB1_fields {sn : ℕ} (hsn : sn < 1024) (fiFirst fiLast li poll : Bool) {b1 : UInt8}
    (hb1 : AmTransmitter.pduB1 (UmEntity.framingInfo fiFirst fiLast) li sn poll = b1) :
    b1 >>> 7 ≠ 0 ∧ ¬(b1 >>> 6) &&& 0x01 ≠ 0 ∧ (b1 >>> 3) &&& 0x03 = UmEntity.framingInfo fiFirst fiLast ∧
      ((b1 >>> 2) &&& 0x01 ≠ 0 ↔ li = true) ∧ (b1 &&& 0x03).toNat = sn / 256 := by
  have hhigh : sn >>> 8 = sn / 256 := Nat.shiftRight_eq_div_pow sn 8
  rw [← hb1, AmTransmitter.pduB1, hhigh]
  exact b1_fields fiFirst fiLast li poll ⟨sn / 256, by omega⟩

/-- An AMD PDU and the frame in it. -/
def encodePdu (sn : ℕ) (poll fiFirst : Bool) (f : Frame UInt8) : Bytes :=
  AmTransmitter.pduB1 (UmEntity.framingInfo fiFirst f.ends) (f.complete.length > 0) sn poll ::
    AmTransmitter.pduB2 sn :: (encodeLis (f.complete.map List.length) ++ f.payload)

theorem encodePdu_length (sn : ℕ) (poll fiFirst : Bool) (f : Frame UInt8) :
    (encodePdu sn poll fiFirst f).length = 2 + (lisSize f.complete.length + f.payload.length) := by
  rw [encodePdu, List.length_cons, List.length_cons, List.length_append, encodeLis_length, List.length_map]
  omega

theorem int16_eq {x : ℤ} (h : -32768 ≤ x) (h' : x < 32768) : int16 x = x := by
  rw [int16]
  omega

/-- Nothing overflows where the length indicators are summed. -/
theorem foldl_int16 {lis : List ℕ} {n : ℕ} (h : n + lis.sum < 32768) :
    (lis.map Nat.cast).foldl (fun sum li ↦ int16 (sum + li)) (n : ℤ) = ((n + lis.sum : ℕ) : ℤ) := by
  induction lis generalizing n with
  | nil => rfl
  | cons li lis ih =>
    rw [List.sum_cons, ← Nat.add_assoc] at h ⊢
    rw [List.map_cons, List.foldl_cons, int16_eq (by omega) (by omega), ← Nat.cast_add, ih h]

/-- What is read from a PDU that has `spare` behind its frame. -/
theorem getDataPduInfos_encodePdu {sn : ℕ} (poll fiFirst : Bool) {f : Frame UInt8} (spare : Bytes) (hsn : sn < 1024)
    (hlis : ∀ segment ∈ f.complete, segment.length < 2048) (hmax : f.complete.length ≤ rlcAmMaxSduInPdu)
    (hsize : (encodePdu sn poll fiFirst f ++ spare).length < 32768) :
    ∃ info, getDataPduInfos (encodePdu sn poll fiFirst f ++ spare) (encodePdu sn poll fiFirst f ++ spare).length =
        .ok info ∧
      info.sn = sn ∧ info.fi = UmEntity.framingInfo fiFirst f.ends ∧ info.liList = f.complete.map List.length ∧
      info.payloadSize = f.payload.length + spare.length ∧ info.rf = false ∧ (info.e = true ↔ f.complete ≠ []) ∧
      info.payload = 2 + lisSize f.complete.length ∧ info.hiddenSize = f.last.length + spare.length ∧ info.so = 0 := by
  generalize hb1 : AmTransmitter.pduB1 (UmEntity.framingInfo fiFirst f.ends) (f.complete.length > 0) sn poll = b1
  obtain ⟨hdC, hrf, hfi, he, hlow⟩ := pduB1_fields hsn fiFirst f.ends (f.complete.length > 0) poll hb1
  have hb2 : (AmTransmitter.pduB2 sn).toNat = sn % 256 := by
    have hmask : sn &&& 0xFF = sn % 2 ^ 8 := Nat.and_two_pow_sub_one_eq_mod sn 8
    rw [AmTransmitter.pduB2, hmask, UInt8.toNat_ofNat']
    omega
  have hread : (if (b1 >>> 2) &&& 0x01 ≠ 0 then
        readLis rlcAmMaxSduInPdu (encodeLis (f.complete.map List.length) ++ (f.payload ++ spare)) []
      else some []) = some (f.complete.map List.length) := by
    by_cases hcomplete : f.complete = []
    · rw [if_neg]
      · rw [hcomplete]
        rfl
      · rw [hcomplete] at he
        exact he.not.mpr Bool.false_ne_true
    · have hpos : f.complete.length > 0 := List.length_pos_iff.mpr hcomplete
      rw [if_pos (he.mpr (decide_eq_true hpos))]
      have hne : f.complete.map List.length ≠ [] := List.map_eq_nil_iff.not.mpr hcomplete
      have hlis' : ∀ li ∈ f.complete.map List.length, li < 2048 := by
        intro li hli
        obtain ⟨segment, hsegment, rfl⟩ := List.mem_map.mp hli
        exact hlis segment hsegment
      exact readLis_encodeLis (f.payload ++ spare) hne hlis' (by rwa [List.length_map])
        (by rwa [List.length_nil, Nat.zero_add, List.length_map])
  have hbytes : encodePdu sn poll fiFirst f ++ spare =
      b1 :: AmTransmitter.pduB2 sn :: (encodeLis (f.complete.map List.length) ++ (f.payload ++ spare)) := by
    rw [encodePdu, hb1, List.cons_append, List.cons_append, List.append_assoc]
  have hlength : (encodePdu sn poll fiFirst f ++ spare).length =
      2 + (lisSize f.complete.length + f.payload.length) + spare.length := by
    rw [List.length_append, encodePdu_length]
  have hlisSize : ((f.complete.map List.length).length * 3 + 1) >>> 1 = lisSize f.complete.length := by
    rw [List.length_map, lisSize]
  rw [hlength] at hsize ⊢
  rw [hbytes, getDataPduInfos]
  simp only [List.getD_cons_zero, List.getD_cons_succ]
  rw [if_neg hdC]
  simp only [if_neg hrf, List.drop_succ_cons, List.drop_zero]
  rw [hread]
  have hpayloadSize : int16 (int16 ((2 + (lisSize f.complete.length + f.payload.length) + spare.length : ℕ) : ℤ) -
      ((2 + ((f.complete.map List.length).length * 3 + 1) >>> 1 : ℕ) : ℤ)) = f.payload.length + spare.length := by
    rw [hlisSize, int16_eq (x := ((2 + (lisSize f.complete.length + f.payload.length) + spare.length : ℕ) : ℤ))
      (by omega) (by omega), int16_eq (by push_cast; omega) (by push_cast; omega)]
    push_cast
    omega
  have hsum : (f.complete.map List.length >>= fun li ↦ pure (li : ℤ)).foldl (fun sum li ↦ int16 (sum + li)) 0 =
      ((f.complete.map List.length).sum : ℤ) := by
    have hfits : 0 + (f.complete.map List.length).sum < 32768 := by
      rw [f.payload_length] at hsize
      omega
    have hfold := foldl_int16 hfits
    rw [Nat.zero_add] at hfold
    rw [bind_pure_comp]
    exact hfold
  refine ⟨_, rfl, ?_, hfi, rfl, hpayloadSize, decide_eq_false hrf, ?_, congrArg (2 + ·) hlisSize, ?_, rfl⟩
  · change (AmTransmitter.pduB2 sn).toNat + (b1 &&& 0x03).toNat <<< 8 = sn
    rw [hb2, hlow, Nat.shiftLeft_eq]
    omega
  · change decide ((b1 >>> 2) &&& 0x01 ≠ 0) = true ↔ _
    rw [decide_eq_true_iff, he, decide_eq_true_iff, gt_iff_lt, List.length_pos_iff]
  · have hlength := f.payload_length
    dsimp only
    rw [hpayloadSize, hsum]
    split_ifs with hmore
    · rw [int16_eq (by omega) (by omega)]
      omega
    · omega

end AmPduInfo

namespace AmTxSdu

/-- An SDU of which some bytes have not been sent, with sizes that belong to its data. -/
structure Waits (sdu : AmTxSdu) : Prop where
  size_eq : (sdu.memBlock.getD []).length = sdu.sduSize
  sizes_add : sdu.sduSegmentedSize + sdu.sduRemainingSize = sdu.sduSize
  remaining_pos : 0 < sdu.sduRemainingSize

/-- The SDU as the passes of unacknowledged mode see it. -/
def tx (sdu : AmTxSdu) : TxSdu where
  data := sdu.memBlock.getD []
  sduRemainingSize := (sdu.memBlock.getD []).length - min sdu.sduSegmentedSize (sdu.memBlock.getD []).length
  sduSegmentedSize := min sdu.sduSegmentedSize (sdu.memBlock.getD []).length
  sduSize := (sdu.memBlock.getD []).length
  size_eq := rfl
  sizes_add := by omega

namespace Waits

variable {sdu : AmTxSdu}

theorem tx_sizes (h : sdu.Waits) : sdu.tx.sduRemainingSize = sdu.sduRemainingSize ∧
    sdu.tx.sduSegmentedSize = sdu.sduSegmentedSize ∧ sdu.tx.sduSize = sdu.sduSize := by
  have hsize := h.size_eq
  have hadd := h.sizes_add
  have hsegmented : min sdu.sduSegmentedSize (sdu.memBlock.getD []).length = sdu.sduSegmentedSize :=
    Nat.min_eq_left (by omega)
  refine ⟨?_, hsegmented, hsize⟩
  change (sdu.memBlock.getD []).length - min sdu.sduSegmentedSize (sdu.memBlock.getD []).length = _
  omega

theorem tx_remaining (h : sdu.Waits) : sdu.tx.sduRemainingSize = sdu.sduRemainingSize := h.tx_sizes.1

theorem tx_rest (h : sdu.Waits) : sdu.tx.rest = sdu.rest := congrArg (List.drop · _) h.tx_sizes.2.1

/-- A part of the SDU is sent. -/
theorem advance {n : ℕ} (h : sdu.Waits) (hn : n < sdu.tx.sduRemainingSize) :
    (sdu.advance n).Waits ∧ (sdu.advance n).tx = sdu.tx.advance n hn.le := by
  obtain ⟨hremaining, hsegmented, -⟩ := h.tx_sizes
  have hsize := h.size_eq
  have hadd := h.sizes_add
  refine ⟨⟨hsize, ?_, ?_⟩, ?_⟩
  · change sdu.sduSegmentedSize + n + (sdu.sduRemainingSize - n) = sdu.sduSize
    omega
  · change 0 < sdu.sduRemainingSize - n
    omega
  · have hmin : min (sdu.sduSegmentedSize + n) (sdu.memBlock.getD []).length = sdu.sduSegmentedSize + n :=
      Nat.min_eq_left (by omega)
    have hmin' : min sdu.sduSegmentedSize (sdu.memBlock.getD []).length = sdu.sduSegmentedSize := hsegmented
    simp only [AmTxSdu.tx, AmTxSdu.advance, TxSdu.advance, hmin, hmin', TxSdu.mk.injEq, and_true, true_and]
    omega

end Waits

end AmTxSdu

namespace DryPass

theorem testNumLi_le (sdus : List TxSdu) (d : DryPass) : d.testNumLi ≤ (loop sdus d).testNumLi := by
  induction sdus generalizing d with
  | nil => exact le_rfl
  | cons sdu sdus ih =>
    rw [loop]
    split_ifs with hgt heq hexact hlt
    · exact le_rfl
    · exact le_rfl
    · exact le_rfl
    · exact (Nat.le_succ _).trans (ih (d.addLi sdu.sduRemainingSize))
    · exact le_rfl

/-- Both modes find out the same for the size of a PDU that holds few enough SDUs. -/
theorem loopAm_eq (sdus : List TxSdu) (d : DryPass) (n : ℕ) (hnum : d.testNumLi = d.numFillSdu)
    (hfew : (loop sdus d).testNumLi ≤ rlcAmMaxSduInPdu - 1) :
    loopAm (sdus.map (·.sduRemainingSize)) d.numFillSdu { d with dataPduSize := n } =
      ({ loop sdus d with dataPduSize := n }, (loop sdus d).numFillSdu) := by
  induction sdus generalizing d with
  | nil => rfl
  | cons sdu sdus ih =>
    rw [loop] at hfew ⊢
    rw [List.map_cons, loopAm]
    dsimp only
    split_ifs at hfew ⊢ with hgt heq hexact hlt hmany
    · rfl
    · rfl
    · rfl
    · have hle : (d.addLi sdu.sduRemainingSize).testNumLi ≤ (loop sdus (d.addLi sdu.sduRemainingSize)).testNumLi :=
        testNumLi_le sdus _
      have hone : (d.addLi sdu.sduRemainingSize).testNumLi = d.testNumLi + 1 := rfl
      omega
    · have hnum' : (d.addLi sdu.sduRemainingSize).testNumLi = (d.addLi sdu.sduRemainingSize).numFillSdu :=
        congrArg (· + 1) hnum
      exact ih (d.addLi sdu.sduRemainingSize) hnum' hfew
    · rfl

end DryPass

namespace AmTransmitter

variable {s t : AmTransmitter} {i : ℕ} {u : TxSdu} {us us' : List TxSdu} {fr : Segmentation.Frame UInt8} {f : AmFilling}

/-- The SDUs of the queue. -/
def txSdus (s : AmTransmitter) : List TxSdu := s.queue.map fun i ↦ (s.inputSdus i).tx

theorem queue_nil (hcurrent : s.currentSduIndex < 1024) (hmem : ¬(s.inputSdus s.currentSduIndex).memBlock.isSome) :
    s.queue = [] := by
  have hfirst : (s.currentSduIndex + 0) % rlcAmSduControlBufferSize = s.currentSduIndex := Nat.mod_eq_of_lt hcurrent
  have hsize : rlcAmSduControlBufferSize = 1023 + 1 := rfl
  rw [queue, hsize, List.range_succ_eq_map, List.map_cons, ← hsize, hfirst]
  exact List.takeWhile_cons_of_neg hmem

theorem endSdu_eq (hcurrent : s.currentSduIndex < 1024) (hmem : (s.inputSdus s.currentSduIndex).memBlock.isSome) :
    s.endSdu = { { s with nbSduNoSegmented := s.nbSduNoSegmented - 1 }.setSdu s.currentSduIndex
      (s.inputSdus s.currentSduIndex).freeData with
        currentSduIndex := (s.currentSduIndex + 1) % rlcAmSduControlBufferSize } := by
  have hle : s.currentSduIndex ≤ rlcAmSduControlBufferSize := hcurrent.le
  rw [endSdu, freeInSduData, if_pos ⟨hle, hmem⟩]

/-- The first SDU leaves the queue. -/
structure Pops (s t : AmTransmitter) : Prop where
  only : s.OnlySdus t
  current_lt : t.currentSduIndex < 1024
  queue_eq : s.queue = s.currentSduIndex :: t.queue
  freed : t.inputSdus s.currentSduIndex = (s.inputSdus s.currentSduIndex).freeData
  other : ∀ i, i ≠ s.currentSduIndex → t.inputSdus i = s.inputSdus i
  remaining_eq : remaining t.inputSdus + (s.inputSdus s.currentSduIndex).sduRemainingSize = remaining s.inputSdus

theorem pops_endSdu (hcurrent : s.currentSduIndex < 1024) (hmem : (s.inputSdus s.currentSduIndex).memBlock.isSome) :
    s.Pops s.endSdu := by
  have hend := endSdu_eq hcurrent hmem
  have hfreed : s.endSdu.inputSdus s.currentSduIndex = (s.inputSdus s.currentSduIndex).freeData := by
    rw [hend]
    exact setSdu_same _ _ _
  have hother (i : ℕ) (hne : i ≠ s.currentSduIndex) : s.endSdu.inputSdus i = s.inputSdus i := by
    rw [hend]
    exact setSdu_other _ _ hne
  refine ⟨?_, Nat.mod_lt _ (by decide), ?_, hfreed, hother, ?_⟩
  · rw [hend]
    exact ⟨_, _, s.nbSdu, _, s.dataConf, rfl⟩
  · rw [queue, queue]
    refine RingQueue.takeWhile_ring hcurrent hmem ?_ fun i hne ↦ ?_
    · rw [hfreed]
      rfl
    · rw [hother i hne]
  · have hsum := remaining_update s.inputSdus hcurrent (s.inputSdus s.currentSduIndex).freeData
    have hzero : (s.inputSdus s.currentSduIndex).freeData.sduRemainingSize = 0 := rfl
    rw [hzero, Nat.add_zero] at hsum
    rw [hend]
    exact hsum

namespace Pops

variable (h : s.Pops t)

include h

theorem current_not_mem : s.currentSduIndex ∉ t.queue := by
  intro hmem
  have hsome := (mem_queue hmem).2
  rw [h.freed] at hsome
  cases hsome

theorem other_of_mem (hi : i ∈ t.queue) : t.inputSdus i = s.inputSdus i := by
  refine h.other i ?_
  rintro rfl
  exact h.current_not_mem hi

theorem waits (hwaits : ∀ i ∈ s.queue, (s.inputSdus i).Waits) : ∀ i ∈ t.queue, (t.inputSdus i).Waits := by
  intro i hi
  rw [h.other_of_mem hi]
  exact hwaits i (by rw [h.queue_eq]; exact List.mem_cons_of_mem _ hi)

theorem txSdus_eq : s.txSdus = (s.inputSdus s.currentSduIndex).tx :: t.txSdus := by
  rw [txSdus, txSdus, h.queue_eq, List.map_cons]
  refine congrArg _ (List.map_congr_left fun i hi ↦ ?_)
  rw [h.other_of_mem hi]

end Pops

/-- A part of the current SDU is sent. -/
theorem txSdus_advance {n : ℕ} (hpops : s.Pops s.endSdu)
    (hwaits : ∀ i ∈ s.queue, (s.inputSdus i).Waits) (hn : n < (s.inputSdus s.currentSduIndex).tx.sduRemainingSize) :
    let t := s.setSdu s.currentSduIndex ((s.inputSdus s.currentSduIndex).advance n)
    t.txSdus = (s.inputSdus s.currentSduIndex).tx.advance n hn.le :: s.endSdu.txSdus ∧
      ∀ i ∈ t.queue, (t.inputSdus i).Waits := by
  intro t
  obtain ⟨hwait, htx⟩ := (hwaits _ (by rw [hpops.queue_eq]; exact List.mem_cons_self)).advance hn
  have hself : t.inputSdus s.currentSduIndex = (s.inputSdus s.currentSduIndex).advance n := setSdu_same _ _ _
  have hqueue : t.queue = s.queue := by
    rw [queue, queue]
    congr 1
    funext i
    rcases eq_or_ne i s.currentSduIndex with rfl | hne
    · rw [hself]
      rfl
    · rw [setSdu_other _ _ hne]
  have hrest (i : ℕ) (hi : i ∈ s.endSdu.queue) :
      t.inputSdus i = s.inputSdus i ∧ s.endSdu.inputSdus i = s.inputSdus i := by
    refine ⟨setSdu_other _ _ ?_, hpops.other_of_mem hi⟩
    rintro rfl
    exact hpops.current_not_mem hi
  rw [txSdus, txSdus, hqueue, hpops.queue_eq, List.map_cons, hself, htx]
  refine ⟨congrArg _ (List.map_congr_left fun i hi ↦ ?_), List.forall_mem_cons.mpr ⟨?_, fun i hi ↦ ?_⟩⟩
  · rw [(hrest i hi).1, (hrest i hi).2]
  · rw [hself]
    exact hwait
  · rw [(hrest i hi).1]
    exact hwaits i (by rw [hpops.queue_eq]; exact List.mem_cons_of_mem _ hi)

/-- What is segmented is the SDU in the current slot. -/
theorem pops_of_txSdus (hcurrent : s.currentSduIndex < 1024) (hus : s.txSdus = u :: us) :
    (s.inputSdus s.currentSduIndex).memBlock.isSome ∧ s.Pops s.endSdu ∧
      u = (s.inputSdus s.currentSduIndex).tx ∧ us = s.endSdu.txSdus := by
  have hmem : (s.inputSdus s.currentSduIndex).memBlock.isSome := by
    by_contra hnone
    rw [txSdus, queue_nil hcurrent hnone] at hus
    cases hus
  have hpops := pops_endSdu hcurrent hmem
  rw [hpops.txSdus_eq] at hus
  obtain ⟨hu, hus⟩ := List.cons.inj hus
  exact ⟨hmem, hpops, hu.symm, hus.symm⟩

/-- What the pass that fills a PDU leaves of the queue, if the PDU takes a frame from it. -/
structure Takes (s : AmTransmitter) (fr : Segmentation.Frame UInt8) (t : AmTransmitter) : Prop where
  only : s.OnlySdus t
  other : ∀ i ∉ s.queue, t.inputSdus i = s.inputSdus i
  ended : ∀ i ∈ s.queue.take fr.complete.length, t.inputSdus i = (s.inputSdus i).freeData
  last : ∀ i, s.queue[fr.complete.length]? = some i → ((t.inputSdus i).memBlock = none ↔ fr.ends = true)
  remaining_eq : remaining t.inputSdus + fr.payload.length = remaining s.inputSdus

theorem Pops.takes {v : AmTransmitter} (h : s.Pops v) (ht : v.Takes fr t)
    (hsdu : u.sduRemainingSize = (s.inputSdus s.currentSduIndex).sduRemainingSize) :
    s.Takes ⟨u.rest :: fr.complete, fr.last, fr.ends⟩ t where
  only := h.only.trans ht.only
  other i hi := by
    rw [h.queue_eq, List.mem_cons, not_or] at hi
    rw [ht.other i hi.2, h.other i hi.1]
  ended i hi := by
    have htake : s.queue.take (fr.complete.length + 1) = s.currentSduIndex :: v.queue.take fr.complete.length := by
      rw [h.queue_eq, List.take_succ_cons]
    rw [List.length_cons, htake] at hi
    rcases List.mem_cons.mp hi with rfl | hi
    · rw [ht.other _ h.current_not_mem, h.freed]
    · rw [ht.ended i hi, h.other_of_mem (List.mem_of_mem_take hi)]
  last i hi := by
    refine ht.last i ?_
    rw [← hi, h.queue_eq, List.length_cons, List.getElem?_cons_succ]
  remaining_eq := by
    have hrest := ht.remaining_eq
    have hsum := h.remaining_eq
    rw [payload_cons, hsdu]
    omega

theorem copy_toFilling {sdu : AmTxSdu} (h : sdu.Waits) (f : AmFilling) (n : ℕ) :
    (f.copy sdu n).toFilling = f.toFilling.copy sdu.tx n := by
  rw [AmFilling.copy, Filling.copy, h.tx_rest]

theorem addSdu_toFilling {sdu : AmTxSdu} (h : sdu.Waits) (f : AmFilling) (testNumLi : ℕ) :
    (f.addSdu testNumLi sdu).toFilling = f.toFilling.addSdu testNumLi sdu.tx := by
  have hcopy := copy_toFilling h f sdu.sduRemainingSize
  rw [AmFilling.addSdu, Filling.addSdu, h.tx_remaining, hcopy]

/-- The pass fills the PDU as that of unacknowledged mode does. -/
theorem fillLoop_packs {li room : ℕ} (testNumLi fuel : ℕ) (h : Packs li room us fr us') (hus : s.txSdus = us)
    (hcurrent : s.currentSduIndex < 1024) (hwaits : ∀ i ∈ s.queue, (s.inputSdus i).Waits)
    (hli : f.liLengthInBytes = 1 ∨ f.liLengthInBytes = 2) (hfli : f.liLengthInBytes = li)
    (hroom : f.pduRemainingSize = room) (hnum : f.fillNumLi + fr.complete.length ≤ 127)
    (hfuel : fr.complete.length < fuel) :
    ∃ f' t, s.fillLoop testNumLi fuel f = some (f', t) ∧
      f'.toFilling = (Filling.loop testNumLi us f.toFilling).1 ∧
      f'.payloadSize = f.payloadSize + fr.payload.length ∧ s.Takes fr t ∧ t.txSdus = us' ∧
      ∀ i ∈ t.queue, (t.inputSdus i).Waits := by
  obtain ⟨fuel, rfl⟩ := Nat.exists_eq_add_one.mpr (Nat.lt_of_le_of_lt (Nat.zero_le _) hfuel)
  induction h generalizing s f fuel with
  | part li room sdu sdus hpos h =>
    obtain ⟨hmem, hpops, rfl, hsdus⟩ := pops_of_txSdus hcurrent hus
    have hwait := hwaits s.currentSduIndex (by rw [hpops.queue_eq]; exact List.mem_cons_self)
    have hlarger : (s.inputSdus s.currentSduIndex).sduRemainingSize > f.pduRemainingSize := by
      rw [← hwait.tx_remaining, hroom]
      exact h
    have hpayload :
        (Segmentation.Frame.payload ⟨[], (s.inputSdus s.currentSduIndex).tx.rest.take room, false⟩).length = room := by
      rw [Segmentation.Frame.payload, List.flatten_nil, List.nil_append, List.length_take, TxSdu.rest_length]
      exact Nat.min_eq_left (Nat.le_of_lt h)
    rw [fillLoop, Filling.loop, dif_pos (hroom ▸ h)]
    dsimp only
    rw [if_pos hmem, if_pos hlarger]
    subst hroom
    refine ⟨_, _, rfl, ?_, ?_, ⟨.setSdu _ _ _, ?_, ?_, ?_, ?_⟩, ?_⟩
    · rw [copy_toFilling hwait]
    · rw [hpayload]
      rfl
    · intro i hi
      refine setSdu_other _ _ ?_
      rintro rfl
      exact hi (by rw [hpops.queue_eq]; exact List.mem_cons_self)
    · intro i hi
      rw [List.length_nil, List.take_zero] at hi
      exact absurd hi List.not_mem_nil
    · intro i hi
      rw [hpops.queue_eq, List.length_nil, List.getElem?_cons_zero] at hi
      obtain rfl := Option.some.inj hi
      rw [setSdu_same]
      refine iff_of_false (fun hnone ↦ ?_) Bool.false_ne_true
      have hnone : (s.inputSdus s.currentSduIndex).memBlock = none := hnone
      rw [hnone] at hmem
      cases hmem
    · have hsum := remaining_update s.inputSdus hcurrent
        ((s.inputSdus s.currentSduIndex).advance f.pduRemainingSize)
      have hleft : ((s.inputSdus s.currentSduIndex).advance f.pduRemainingSize).sduRemainingSize =
          (s.inputSdus s.currentSduIndex).sduRemainingSize - f.pduRemainingSize := rfl
      rw [hpayload]
      change remaining (update s.inputSdus s.currentSduIndex _) + f.pduRemainingSize = remaining s.inputSdus
      omega
    · rw [hsdus]
      exact txSdus_advance hpops hwaits h
  | whole li sdu sdus hpos =>
    obtain ⟨hmem, hpops, rfl, hsdus⟩ := pops_of_txSdus hcurrent hus
    have hwait := hwaits s.currentSduIndex (by rw [hpops.queue_eq]; exact List.mem_cons_self)
    have hequal : (s.inputSdus s.currentSduIndex).sduRemainingSize = f.pduRemainingSize := by
      rw [← hwait.tx_remaining, hroom]
    have hpayload : (Segmentation.Frame.payload ⟨[], (s.inputSdus s.currentSduIndex).tx.rest, true⟩).length =
        (s.inputSdus s.currentSduIndex).sduRemainingSize := by
      rw [← hwait.tx_remaining]
      exact TxSdu.rest_length _
    rw [fillLoop, Filling.loop, dif_neg (by omega), if_pos hroom.symm]
    dsimp only
    rw [if_pos hmem, if_neg (by omega), if_pos hequal]
    refine ⟨_, _, rfl, ?_, ?_, ⟨hpops.only, ?_, ?_, ?_, ?_⟩, hsdus.symm, hpops.waits hwaits⟩
    · rw [copy_toFilling hwait]
    · rw [hpayload, hequal]
      rfl
    · intro i hi
      refine hpops.other i ?_
      rintro rfl
      exact hi (by rw [hpops.queue_eq]; exact List.mem_cons_self)
    · intro i hi
      rw [List.length_nil, List.take_zero] at hi
      exact absurd hi List.not_mem_nil
    · intro i hi
      rw [hpops.queue_eq, List.length_nil, List.getElem?_cons_zero] at hi
      obtain rfl := Option.some.inj hi
      rw [hpops.freed]
      exact iff_of_true rfl rfl
    · rw [hpayload]
      exact hpops.remaining_eq
  | @more li room sdu sdus sdus' fr h ih =>
    obtain ⟨hmem, hpops, rfl, hsdus⟩ := pops_of_txSdus hcurrent hus
    have hwait := hwaits s.currentSduIndex (by rw [hpops.queue_eq]; exact List.mem_cons_self)
    have hremaining := hwait.tx_remaining
    have hroom' := h.room_pos
    have hxor := li_xor hli
    subst hfli
    rw [List.length_cons] at hnum hfuel
    obtain ⟨fuel, rfl⟩ := Nat.exists_eq_add_one.mpr (show 0 < fuel by omega)
    obtain ⟨hli', hnum'⟩ := addSdu_counts testNumLi (s.inputSdus s.currentSduIndex) f
    obtain ⟨-, hroom'', hpayload⟩ := addSdu_fields testNumLi (s.inputSdus s.currentSduIndex) f
    have hlimit : ¬f.fillNumLi = rlcAmMaxSduInPdu - 1 := by
      have hmax : rlcAmMaxSduInPdu - 1 = 127 := rfl
      omega
    obtain ⟨f', t, hloop, hfilled, hsize, htakes, hleft⟩ := ih (f := f.addSdu testNumLi (s.inputSdus s.currentSduIndex))
      hsdus.symm hpops.current_lt (hpops.waits hwaits) (by omega) hli' (by omega) (by omega) fuel (by omega)
    rw [fillLoop]
    dsimp only
    rw [if_pos hmem, if_neg (by omega), if_neg (by omega), if_pos (by omega), if_neg hlimit]
    refine ⟨f', t, hloop, ?_, ?_, hpops.takes htakes hremaining, hleft⟩
    · rw [hfilled, addSdu_toFilling hwait, Filling.loop, dif_neg (by omega), if_neg (by omega), if_pos (by omega)]
    · rw [hsize, hpayload, payload_cons, hremaining]
      omega

/-- Listing SDUs writes their `nb_pdus` only. -/
theorem listSdus_nbPdus {indices : List ℕ} (ht : indices.foldlM (fun s index ↦ s.listSdu index) s = some t) :
    ∃ nbPdus : ℕ → UInt8, t = { s with inputSdus := fun i ↦ { s.inputSdus i with nbPdus := nbPdus i } } := by
  induction indices generalizing s with
  | nil =>
    obtain rfl := Option.some.inj ht
    exact ⟨fun i ↦ (s.inputSdus i).nbPdus, rfl⟩
  | cons index indices ih =>
    rw [List.foldlM_cons, Option.bind_eq_bind, Option.bind_eq_some_iff] at ht
    obtain ⟨v, hv, ht⟩ := ht
    obtain ⟨rfl, -⟩ := listSdu_eq hv
    obtain ⟨nbPdus, rfl⟩ := ih ht
    refine ⟨nbPdus, ?_⟩
    have hsdus : (fun i ↦ { (s.setSdu index (s.inputSdus index).list).inputSdus i with nbPdus := nbPdus i }) =
        fun i ↦ { s.inputSdus i with nbPdus := nbPdus i } := by
      funext i
      rcases eq_or_ne i index with rfl | hne
      · rw [setSdu_same]
        rfl
      · rw [setSdu_other _ _ hne]
    rw [hsdus]
    rfl

/-- No assertion fails while SDUs are listed that are in few enough PDUs. -/
theorem exists_listSdus {indices : List ℕ} (hnodup : indices.Nodup) :
    (∃ t, indices.foldlM (fun s index ↦ s.listSdu index) s = some t) ↔
      ∀ i ∈ indices, (s.inputSdus i).list.nbPdus.toNat < rlcAmMaxSduFragments := by
  induction indices generalizing s with
  | nil => exact iff_of_true ⟨s, rfl⟩ fun _ hi ↦ absurd hi List.not_mem_nil
  | cons index indices ih =>
    obtain ⟨hindex, hnodup⟩ := List.nodup_cons.mp hnodup
    have hrest : (∀ i ∈ indices, ((s.setSdu index (s.inputSdus index).list).inputSdus i).list.nbPdus.toNat <
        rlcAmMaxSduFragments) ↔ ∀ i ∈ indices, (s.inputSdus i).list.nbPdus.toNat < rlcAmMaxSduFragments := by
      refine forall₂_congr fun i hi ↦ ?_
      rw [setSdu_other _ _ (ne_of_mem_of_not_mem hi hindex)]
    rw [List.forall_mem_cons, ← hrest, ← ih hnodup]
    by_cases hfew : (s.inputSdus index).list.nbPdus.toNat < rlcAmMaxSduFragments
    · have hlist : s.listSdu index = some (s.setSdu index (s.inputSdus index).list) := if_pos hfew
      rw [and_iff_right hfew]
      simp only [List.foldlM_cons, hlist, Option.bind_eq_bind, Option.bind_some]
    · have hlist : s.listSdu index = none := if_neg hfew
      simp only [List.foldlM_cons, hlist, Option.bind_eq_bind, Option.bind_none, hfew, false_and, reduceCtorEq,
        exists_false]

theorem queue_nodup (s : AmTransmitter) : s.queue.Nodup := by
  refine List.Nodup.sublist (List.takeWhile_sublist _) (List.Nodup.map_on ?_ List.nodup_range)
  intro k hk k' hk' heq
  rw [List.mem_range] at hk hk'
  have hsize : rlcAmSduControlBufferSize = 1024 := rfl
  rw [hsize] at hk hk' heq
  omega

/-- The remaining sizes of the SDUs of the queue. -/
def sizes (s : AmTransmitter) : List ℕ := s.queue.map fun i ↦ (s.inputSdus i).sduRemainingSize

/-- The bytes of the queue that have not been sent. -/
def waiting (s : AmTransmitter) : Bytes := s.queue.flatMap fun i ↦ (s.inputSdus i).rest

/-- The sizes of the SDUs of the queue belong to their data, and the counters to the queue. -/
structure ConsistentQueue (s : AmTransmitter) : Prop where
  current_lt : s.currentSduIndex < 1024
  vtS_lt : s.vtS < 1024
  waits : ∀ i ∈ s.queue, (s.inputSdus i).Waits
  occupancy : s.sduBufferOccupancy = s.sizes.sum
  nbSduNoSegmented_eq : s.nbSduNoSegmented = s.queue.length

/-- The queue as an entity of unacknowledged mode has it, whose header is shorter by a byte. -/
def um (s : AmTransmitter) : UmEntity :=
  { UmEntity.configured true with
    inputSdus := s.txSdus
    bufferOccupancy := s.sduBufferOccupancy
    nbBytesRequestedByMac := s.nbBytesRequestedByMac - 1 }

theorem um_inputSdus (s : AmTransmitter) : s.um.inputSdus = s.txSdus := by
  rw [um]

theorem um_bufferOccupancy (s : AmTransmitter) : s.um.bufferOccupancy = s.sduBufferOccupancy := by
  rw [um]

theorem um_nbBytesRequestedByMac (s : AmTransmitter) :
    s.um.nbBytesRequestedByMac = s.nbBytesRequestedByMac - 1 := by
  rw [um]

theorem um_txHeaderMinLengthInBytes (s : AmTransmitter) : s.um.txHeaderMinLengthInBytes = 1 := by
  rw [um, UmEntity.configured]

theorem txSdus_length (s : AmTransmitter) : s.txSdus.length = s.queue.length := by
  rw [txSdus, List.length_map]

theorem maxLiOverhead_eq {n : ℕ} (h : s.nbSduNoSegmented = n) : s.maxLiOverhead = UmEntity.maxLiOverhead n := by
  have hone : ((n : ℤ) ≤ 1) ↔ n ≤ 1 := by omega
  have hnat : ((n : ℤ) - 1).toNat = n - 1 := by omega
  have hhalf : (n - 1) >>> 1 = (n - 1) / 2 := Nat.shiftRight_eq_div_pow _ 1
  rw [maxLiOverhead, UmEntity.maxLiOverhead, h, hnat, amHeaderLiLength, hhalf, Nat.and_one_is_mod]
  simp only [hone]
  split_ifs
  · rfl
  · omega

namespace ConsistentQueue

variable {reduced : ℕ}

theorem txSdus_sizes (h : s.ConsistentQueue) : s.txSdus.map (·.sduRemainingSize) = s.sizes := by
  rw [txSdus, sizes, List.map_map]
  exact List.map_congr_left fun i hi ↦ (h.waits i hi).tx_remaining

theorem txSdus_rest (h : s.ConsistentQueue) : (s.txSdus.map (·.rest)).flatten = s.waiting := by
  have hrests : s.txSdus.map (·.rest) = s.queue.map fun i ↦ (s.inputSdus i).rest := by
    rw [txSdus, List.map_map]
    exact List.map_congr_left fun i hi ↦ (h.waits i hi).tx_rest
  rw [hrests, waiting, List.flatMap_def]

theorem um_consistent (h : s.ConsistentQueue) : s.um.Consistent where
  txHeaderMinLengthInBytes := s.um_txHeaderMinLengthInBytes
  bufferOccupancy := by
    rw [um_inputSdus, um_bufferOccupancy, h.txSdus_sizes]
    exact h.occupancy
  remaining_pos := by
    intro sdu hsdu
    rw [um_inputSdus, txSdus] at hsdu
    obtain ⟨i, hi, rfl⟩ := List.mem_map.mp hsdu
    rw [(h.waits i hi).tx_remaining]
    exact (h.waits i hi).remaining_pos

theorem dataPduSize_eq (h : s.ConsistentQueue) (hnb : 1 ≤ s.nbBytesRequestedByMac) :
    s.dataPduSize = s.um.dataPduSize + 1 := by
  have hoverhead := maxLiOverhead_eq h.nbSduNoSegmented_eq
  have hheader : rlcAmHeaderMinSize = 2 := rfl
  rw [dataPduSize, UmEntity.dataPduSize, hoverhead, hheader]
  simp only [um_inputSdus, um_bufferOccupancy, um_nbBytesRequestedByMac, um_txHeaderMinLengthInBytes, txSdus_length]
  split_ifs with hall hall' hall'
  · omega
  · omega
  · omega
  · omega

theorem dryPass_eq (h : s.ConsistentQueue) (hnb : 1 ≤ s.nbBytesRequestedByMac) (hfound : s.um.Found reduced fr us')
    (hfew : fr.complete.length ≤ 127) :
    ∃ d, s.dryPass = (d, fr.complete.length + 1) ∧ d.testNumLi = fr.complete.length ∧
      d.pduRemainingSize = s.um.dataPduSize - 1 - reduced := by
  have hnoLi := hfound.finds.noLi
  obtain ⟨hnum, hnumSdu, hroom, -⟩ := hfound.pass
  rw [um_inputSdus] at hnoLi hnum hnumSdu hroom
  have hstart : DryPass.startAm s.dataPduSize = { s.um.firstPass with dataPduSize := s.dataPduSize } := by
    have hheader : rlcAmHeaderMinSize = 2 := rfl
    have htwo : s.um.dataPduSize + 1 - 2 = s.um.dataPduSize - 1 := by omega
    rw [DryPass.startAm, UmEntity.firstPass, h.dataPduSize_eq hnb, hheader, htwo]
  have hloop := DryPass.loopAm_eq s.txSdus s.um.firstPass s.dataPduSize rfl (hnum.trans_le hfew)
  rw [h.txSdus_sizes, ← hstart, hnumSdu] at hloop
  have hpass : DryPass.loopAm (s.queue.map fun i ↦ (s.inputSdus i).sduRemainingSize) 0
      (.startAm s.dataPduSize) = ({ DryPass.loop s.txSdus s.um.firstPass with dataPduSize := s.dataPduSize },
        fr.complete.length + 1) := hloop
  generalize DryPass.loop s.txSdus s.um.firstPass = d at hpass hnum hroom hnoLi
  refine ⟨{ d with dataPduSize := s.dataPduSize }, ?_, hnum, hroom⟩
  have hdrop : DryPass.dropLi { d with dataPduSize := s.dataPduSize } = { d with dataPduSize := s.dataPduSize } :=
    if_neg (by
      change ¬d.testRemainingNumLiToSubstract > 0
      omega)
  rw [dryPass, hpass]
  dsimp only
  rw [hdrop]

end ConsistentQueue

/-- The PDU in its slot, once it has been built. -/
theorem sendPdu_eq (now dataPduSize payload : ℕ) (fiFirst : Bool) (sdusIndex : List ℕ) (f : AmFilling)
    (hsize : dataPduSize - f.pduRemainingSize < rlcSduMaxSize) :
    ∃ t poll, s.sendPdu now fiFirst dataPduSize sdusIndex f payload =
        some (t, load (store f.pdu 0 [pduB1 (UmEntity.framingInfo fiFirst f.fiLastBytePduIsLastByteSdu)
          (f.fillNumLi > 0) s.vtS poll, pduB2 s.vtS]) 0 (dataPduSize - f.pduRemainingSize)) ∧
      (t.inputSdus = s.inputSdus ∧ t.currentSduIndex = s.currentSduIndex ∧ t.sduBufferOccupancy = f.bufferOccupancy) ∧
      (t.pduOf s.vtS).sn = s.vtS ∧ (t.pduOf s.vtS).sdusIndex = sdusIndex ∧
      (t.pduOf s.vtS).headerAndPayloadSize = dataPduSize - f.pduRemainingSize ∧
      (t.pduOf s.vtS).payloadSize = f.payloadSize := by
  rw [sendPdu]
  dsimp only
  rw [if_pos hsize]
  have hpoll := pduPolling_only now f.payloadSize true
    { s with sduBufferOccupancy := f.bufferOccupancy, vtS := amNextSn s.vtS }
  generalize pduPolling now f.payloadSize true
    { s with sduBufferOccupancy := f.bufferOccupancy, vtS := amNextSn s.vtS } = polled at hpoll ⊢
  obtain ⟨v, poll⟩ := polled
  have hslot (p : AmTxPdu) : (v.setPdu s.vtS p).pduOf s.vtS = p := update_self _ _ _
  refine ⟨_, poll, rfl, ⟨hpoll.inputSdus_eq, hpoll.currentSduIndex_eq, hpoll.sduBufferOccupancy_eq⟩, ?_, ?_, ?_, ?_⟩
  · exact congrArg AmTxPdu.sn (hslot _)
  · exact congrArg AmTxPdu.sdusIndex (hslot _)
  · exact congrArg AmTxPdu.headerAndPayloadSize (hslot _)
  · exact congrArg AmTxPdu.payloadSize (hslot _)

theorem sendPdu_none {now dataPduSize payload : ℕ} {fiFirst : Bool} {sdusIndex : List ℕ} {f : AmFilling}
    (hsize : ¬dataPduSize - f.pduRemainingSize < rlcSduMaxSize) :
    s.sendPdu now fiFirst dataPduSize sdusIndex f payload = none := by
  rw [sendPdu]
  dsimp only
  rw [if_neg hsize]

/-- The PDU for a frame, which it carries with `reduced` bytes behind it, and what is left of the queue. -/
structure Carries (s : AmTransmitter) (reduced : ℕ) (fr : Segmentation.Frame UInt8) (t : AmTransmitter) (pdu : Bytes) :
    Prop where
  pdu_eq : ∃ poll spare, spare.length = reduced ∧ pdu =
    AmPduInfo.encodePdu s.vtS poll ((s.inputSdus s.currentSduIndex).sduSegmentedSize = 0) fr ++ spare
  sn : (t.pduOf s.vtS).sn = s.vtS
  sdusIndex : (t.pduOf s.vtS).sdusIndex = s.queue.take (fr.complete.length + 1)
  headerAndPayloadSize : (t.pduOf s.vtS).headerAndPayloadSize = s.dataPduSize
  payloadSize : (t.pduOf s.vtS).payloadSize = fr.payload.length
  ended : ∀ i ∈ s.queue.take fr.complete.length, (t.inputSdus i).sduRemainingSize = 0
  last : ∀ i, s.queue[fr.complete.length]? = some i → ((t.inputSdus i).memBlock = none ↔ fr.ends = true)
  remaining_eq : remaining t.inputSdus + fr.payload.length = remaining s.inputSdus

/-- What waits once a frame has been taken from the queue. -/
structure LeavesSdus (s : AmTransmitter) (fr : Segmentation.Frame UInt8) (us' : List TxSdu) (t : AmTransmitter) :
    Prop where
  txSdus_eq : t.txSdus = us'
  waits : ∀ i ∈ t.queue, (t.inputSdus i).Waits
  occupancy : t.sduBufferOccupancy = s.sduBufferOccupancy - fr.payload.length

/-- The SDUs are those of before, each in one more PDU. -/
structure SameQueue (s t : AmTransmitter) : Prop where
  queue_eq : t.queue = s.queue
  txSdus_eq : t.txSdus = s.txSdus
  currentSduIndex_eq : t.currentSduIndex = s.currentSduIndex
  vtS_eq : t.vtS = s.vtS
  waits : ∀ i ∈ s.queue, (s.inputSdus i).Waits → (t.inputSdus i).Waits
  remaining_eq : remaining t.inputSdus = remaining s.inputSdus

theorem sameQueue {indices : List ℕ} (ht : indices.foldlM (fun s index ↦ s.listSdu index) s = some t) :
    s.SameQueue t := by
  obtain ⟨nbPdus, rfl⟩ := listSdus_nbPdus ht
  have hqueue : queue { s with inputSdus := fun i ↦ { s.inputSdus i with nbPdus := nbPdus i } } = s.queue := by
    rw [queue, queue]
  refine ⟨hqueue, ?_, rfl, rfl, fun i _ hwait ↦ ⟨hwait.1, hwait.2, hwait.3⟩, rfl⟩
  rw [txSdus, txSdus, hqueue]
  rfl

namespace ConsistentQueue

variable {reduced now : ℕ} {block : ℕ → UInt8}

theorem queue_head (h : s.ConsistentQueue) (hne : s.queue ≠ []) : s.queue.head? = some s.currentSduIndex := by
  have hmem : (s.inputSdus s.currentSduIndex).memBlock.isSome := by
    by_contra hnone
    exact hne (queue_nil h.current_lt hnone)
  rw [(pops_endSdu h.current_lt hmem).queue_eq, List.head?_cons]

theorem not_idle (h : s.ConsistentQueue) (hne : s.queue ≠ []) :
    ¬(s.sduBufferOccupancy = 0 ∨ (s.inputSdus s.currentSduIndex).memBlock.isNone) ∧
      s.currentSduIndex ∈ s.queue := by
  have hcurrent := List.mem_of_head? (h.queue_head hne)
  refine ⟨?_, hcurrent⟩
  rintro (hzero | hnone)
  · have hle : (s.inputSdus s.currentSduIndex).sduRemainingSize ≤ s.sizes.sum :=
      List.single_le_sum (fun _ _ ↦ Nat.zero_le _) _ (List.mem_map_of_mem hcurrent)
    have hpos := (h.waits _ hcurrent).remaining_pos
    have hoccupancy := h.occupancy
    omega
  · have hmem := (mem_queue hcurrent).2
    rw [Option.isNone_iff_eq_none] at hnone
    rw [hnone] at hmem
    cases hmem

variable (block) in
/-- The pass that fills the PDU, whatever its memory block holds. -/
theorem fill_eq {v : AmTransmitter} {d : DryPass} (h : s.ConsistentQueue) (hfound : s.um.Found reduced fr us')
    (hfew : fr.complete.length ≤ 127) (hsame : s.SameQueue v) (hnum : d.testNumLi = fr.complete.length)
    (hroom : d.pduRemainingSize = s.um.dataPduSize - 1 - reduced) :
    ∃ f' w, v.fillLoop d.testNumLi (rlcAmSduControlBufferSize + 1)
        (startFilling block d.testNumLi d.pduRemainingSize s.sduBufferOccupancy) = some (f', w) ∧
      Filling.Filled fr.complete.length
        (startFilling block d.testNumLi d.pduRemainingSize s.sduBufferOccupancy).toFilling fr f'.toFilling ∧
      f'.payloadSize = fr.payload.length ∧ v.Takes fr w ∧ w.txSdus = us' ∧ ∀ i ∈ w.queue, (w.inputSdus i).Waits := by
  generalize hf : startFilling block d.testNumLi d.pduRemainingSize s.sduBufferOccupancy = f
  have hdata : f.data = f.eLi + lisSize fr.complete.length := by
    rw [← hf, startFilling, hnum]
    rfl
  have hroomStart : f.pduRemainingSize = s.um.dataPduSize - 1 - reduced := by
    rw [← hf, startFilling, hroom]
  have hzeros : f.liLengthInBytes = 1 ∧ f.fillNumLi = 0 ∧ f.payloadSize = 0 := by
    rw [← hf, startFilling]
    exact ⟨rfl, rfl, rfl⟩
  obtain ⟨hli, hnumStart, hpayloadStart⟩ := hzeros
  obtain ⟨-, hfilled⟩ := hfound.filled (g := f.toFilling) hli hnumStart hroomStart hdata
  obtain ⟨f', w, hfill, hfilling, hpayload, htakes, hleft⟩ := fillLoop_packs (s := v) (f := f)
    d.testNumLi (rlcAmSduControlBufferSize + 1) hfound.packs
    (by rw [hsame.txSdus_eq, um_inputSdus]) (by rw [hsame.currentSduIndex_eq]; exact h.current_lt)
    (by rw [hsame.queue_eq]; exact fun i hi ↦ hsame.waits i hi (h.waits i hi)) (Or.inl hli) hli hroomStart
    (by rw [hnumStart, Nat.zero_add]; exact hfew)
    (Nat.lt_of_le_of_lt hfew (by decide))
  rw [hnum] at hfilling
  rw [← hfilling] at hfilled
  rw [hpayloadStart, Nat.zero_add] at hpayload
  exact ⟨f', w, hfill, hfilled, hpayload, htakes, hleft⟩

variable (now block) in
theorem segment10_eq (h : s.ConsistentQueue) (hnb : 3 ≤ s.nbBytesRequestedByMac) (hne : s.queue ≠ [])
    (hfound : s.um.Found reduced fr us') (hfew : fr.complete.length ≤ 127)
    (hlisted : ∀ i ∈ s.queue.take (fr.complete.length + 1), (s.inputSdus i).list.nbPdus.toNat < rlcAmMaxSduFragments)
    (hsize : s.dataPduSize < rlcSduMaxSize) :
    ∃ t pdu, s.segment10 now block = some (t, some pdu) ∧ s.Carries reduced fr t pdu ∧ s.LeavesSdus fr us' t := by
  obtain ⟨hidle, hcurrent⟩ := h.not_idle hne
  obtain ⟨d, hdry, hnum, hroom⟩ := h.dryPass_eq (by omega) hfound hfew
  obtain ⟨v, hv⟩ := (exists_listSdus (s.queue_nodup.sublist (List.take_sublist _ _))).mpr hlisted
  have hsame := sameQueue hv
  have hdata := hfound.dataPduSize
  have hsizes := h.dataPduSize_eq (by omega)
  obtain ⟨f', w, hfill, hfilled, hpayload, htakes, hleft, hwaits⟩ := h.fill_eq block hfound hfew hsame hnum hroom
  have hvtS : w.vtS = s.vtS := by
    obtain ⟨_, _, _, _, _, rfl⟩ := htakes.only
    exact hsame.vtS_eq
  have hzero := hfilled.pduRemainingSize
  obtain ⟨t, poll, hsend, ⟨hsdus, hcurrentEq, hoccupancy⟩, hsn, hindex, hheader, hpayloadSize⟩ :=
    sendPdu_eq (s := w) now s.dataPduSize (startFilling block d.testNumLi d.pduRemainingSize s.sduBufferOccupancy).data
    ((s.inputSdus s.currentSduIndex).sduRemainingSize = (s.inputSdus s.currentSduIndex).sduSize)
    (s.queue.take (fr.complete.length + 1)) f' (by
      rw [hzero]
      exact Nat.lt_of_le_of_lt (Nat.sub_le _ _) hsize)
  rw [hvtS] at hsend hsn hindex hheader hpayloadSize
  have hfirst : decide ((s.inputSdus s.currentSduIndex).sduRemainingSize = (s.inputSdus s.currentSduIndex).sduSize) =
      decide ((s.inputSdus s.currentSduIndex).sduSegmentedSize = 0) := by
    have hadd := (h.waits _ hcurrent).sizes_add
    exact decide_eq_decide.mpr ⟨fun _ ↦ by omega, fun _ ↦ by omega⟩
  have htotal : s.dataPduSize - f'.pduRemainingSize =
      2 + (lisSize fr.complete.length + fr.payload.length) + reduced := by
    rw [hzero]
    omega
  generalize hpdu : store f'.pdu 0 [pduB1 (UmEntity.framingInfo
    ((s.inputSdus s.currentSduIndex).sduSegmentedSize = 0) fr.ends) (fr.complete.length > 0) s.vtS poll,
      pduB2 s.vtS] = block' at hsend
  have hload : load block' 0 (2 + (lisSize fr.complete.length + fr.payload.length)) =
      AmPduInfo.encodePdu s.vtS poll ((s.inputSdus s.currentSduIndex).sduSegmentedSize = 0) fr := by
    rw [← hpdu]
    exact UmEntity.load_filled [_, _] hfilled rfl rfl (by rw [hnum]; rfl)
  rw [htotal, hfilled.fiLast, hfilled.fillNumLi, hfirst, hpdu, load_add, hload] at hsend
  have hqueue : t.queue = w.queue ∧ t.txSdus = w.txSdus := by
    have hqueue : t.queue = w.queue := by rw [queue, queue, hsdus, hcurrentEq]
    exact ⟨hqueue, by rw [txSdus, txSdus, hqueue, hsdus]⟩
  refine ⟨t, _, ?_, ⟨⟨poll, load block' (0 + (2 + (lisSize fr.complete.length + fr.payload.length))) reduced,
    load_length _ _ _, rfl⟩, hsn, hindex, ?_, ?_, ?_, ?_, ?_⟩, hqueue.2.trans hleft, ?_, ?_⟩
  · rw [segment10]
    dsimp only
    rw [if_neg hidle, hdry]
    simp only [hv, Option.bind_eq_bind, Option.bind_some, hfill, hfirst, hsend]
    rfl
  · rw [hheader, hzero, Nat.sub_zero]
  · rw [hpayloadSize, hpayload]
  · intro i hi
    rw [hsdus, htakes.ended i (by rwa [hsame.queue_eq])]
    rfl
  · intro i hi
    rw [hsdus]
    exact htakes.last i (by rwa [hsame.queue_eq])
  · rw [hsdus, htakes.remaining_eq, hsame.remaining_eq]
  · rw [hqueue.1, hsdus]
    exact hwaits
  · exact hoccupancy.trans hfilled.bufferOccupancy

/-- Where a PDU is built no assertion has failed. -/
theorem of_segment10 {r : AmTransmitter × Option Bytes} (h : s.ConsistentQueue) (hnb : 3 ≤ s.nbBytesRequestedByMac)
    (hne : s.queue ≠ []) (hfound : s.um.Found reduced fr us') (hfew : fr.complete.length ≤ 127)
    (hr : s.segment10 now block = some r) :
    (∀ i ∈ s.queue.take (fr.complete.length + 1), (s.inputSdus i).list.nbPdus.toNat < rlcAmMaxSduFragments) ∧
      s.dataPduSize < rlcSduMaxSize := by
  obtain ⟨hidle, -⟩ := h.not_idle hne
  obtain ⟨d, hdry, hnum, hroom⟩ := h.dryPass_eq (by omega) hfound hfew
  rw [segment10] at hr
  dsimp only at hr
  rw [if_neg hidle, hdry] at hr
  simp only [Option.bind_eq_bind, Option.bind_eq_some_iff] at hr
  obtain ⟨v, hv, filled, hfill, sent, hsend, -⟩ := hr
  obtain ⟨f', w, hfill', hfilled, -⟩ := h.fill_eq block hfound hfew (sameQueue hv) hnum hroom
  obtain rfl := Option.some.inj (hfill'.symm.trans hfill)
  refine ⟨(exists_listSdus (s.queue_nodup.sublist (List.take_sublist _ _))).mp ⟨v, hv⟩, ?_⟩
  by_contra hlarge
  rw [sendPdu_none (by rw [hfilled.pduRemainingSize]; exact hlarge)] at hsend
  cases hsend

end ConsistentQueue

/-- The bytes that have been taken from the queue between two states. -/
def consumed (s t : AmTransmitter) : ℕ := remaining s.inputSdus - remaining t.inputSdus

/-- How much of an SDU has been taken. -/
def part (s t : AmTransmitter) (i : ℕ) : ℕ := (s.inputSdus i).sduRemainingSize - (t.inputSdus i).sduRemainingSize

/-- The framing info that belongs to the SDUs that a PDU lists: its first byte begins the first one, and its last
byte ends the last one. -/
def listedFi (s t : AmTransmitter) (p : AmTxPdu) : UInt8 :=
  UmEntity.framingInfo (p.sdusIndex.head?.all fun i ↦ (s.inputSdus i).sduSegmentedSize = 0)
    (p.sdusIndex.getLast?.all fun i ↦ (t.inputSdus i).memBlock.isNone)

/-- The receiver reads from the PDU what the sender has noted of it in slot `p`, and behind the header are the first
bytes of the queue, as many as have been taken from it. -/
structure Exact (s t : AmTransmitter) (p : AmTxPdu) (pdu : Bytes) (info : AmPduInfo) : Prop where
  decodes : AmPduInfo.getDataPduInfos pdu pdu.length = .ok info
  sn : info.sn = p.sn
  fi : info.fi = s.listedFi t p
  liList : info.liList = p.sdusIndex.dropLast.map (s.part t)
  payloadSize : info.payloadSize = s.consumed t
  headerAndPayloadSize : p.headerAndPayloadSize = 2 + lisSize info.liList.length + s.consumed t
  payload : pdu.drop (2 + lisSize info.liList.length) = s.waiting.take (s.consumed t)
  length : pdu.length = p.headerAndPayloadSize
  le_grant : pdu.length ≤ s.nbBytesRequestedByMac

/-- A PDU is built as long as SDUs wait, and it is exact. -/
def BuildsExactly (now : ℕ) (block : ℕ → UInt8) (s : AmTransmitter) : Prop :=
  ∃ t pdu, s.segment10 now block = some (t, pdu) ∧ (pdu = none → s.queue = []) ∧
    ∀ bytes ∈ pdu, ∃ info, s.Exact t (t.pduOf s.vtS) bytes info

/-- The grant has a place for the first `k` SDUs of the queue, their length indicators and a byte of the next
SDU. -/
def Reaches (s : AmTransmitter) (k : ℕ) : Prop :=
  k < s.sizes.length ∧ 2 + lisSize k + (s.sizes.take k).sum < s.nbBytesRequestedByMac

/-- The grant has a place for the first `k + 1` SDUs of the queue and `k` length indicators, and what is left of it
is too small for another length indicator with data behind it. -/
def LeavesBytes (s : AmTransmitter) (k : ℕ) : Prop :=
  k + 1 < s.sizes.length ∧ 2 + lisSize k + (s.sizes.take (k + 1)).sum < s.nbBytesRequestedByMac ∧
    s.nbBytesRequestedByMac ≤ 2 + lisSize (k + 1) + (s.sizes.take (k + 1)).sum

/-- The grant leaves no bytes, the SDUs that it reaches are in few enough PDUs, and either the grant or all that
waits is small enough for a PDU. -/
structure Segmentable (s : AmTransmitter) : Prop where
  no_bytes : ∀ k, ¬s.LeavesBytes k
  fragments : ∀ k i, s.Reaches k → s.queue[k]? = some i → (s.inputSdus i).list.nbPdus.toNat < rlcAmMaxSduFragments
  size : min s.nbBytesRequestedByMac (2 + lisSize (s.sizes.length - 1) + s.sizes.sum) < rlcSduMaxSize

namespace ConsistentQueue

variable {reduced now : ℕ} {block : ℕ → UInt8}

theorem sizeTo_um (h : s.ConsistentQueue) (k : ℕ) : sizeTo k s.um.inputSdus = (s.sizes.take k).sum := by
  rw [sizeTo, um_inputSdus, List.map_take, h.txSdus_sizes]

theorem length_um (s : AmTransmitter) : s.um.inputSdus.length = s.sizes.length := by
  rw [um_inputSdus, txSdus_length, sizes, List.length_map]

theorem leavesBytes_iff (h : s.ConsistentQueue) (hnb : 3 ≤ s.nbBytesRequestedByMac) (k : ℕ) :
    s.LeavesBytes k ↔ s.um.LeavesBytes k := by
  rw [LeavesBytes, UmEntity.LeavesBytes, h.sizeTo_um, length_um, um_nbBytesRequestedByMac]
  refine and_congr_right fun _ ↦ and_congr ?_ ?_
  · omega
  · omega

/-- The SDUs that are reached are those that have a part in the PDU. -/
theorem reaches_iff (h : s.ConsistentQueue) (hnb : 3 ≤ s.nbBytesRequestedByMac) (hne : s.queue ≠ [])
    (hfound : s.um.Found reduced fr us') (k : ℕ) : s.Reaches k ↔ k ≤ fr.complete.length := by
  cases k with
  | zero =>
    have hpos : 0 < s.sizes.length := by
      rw [sizes, List.length_map]
      exact List.length_pos_iff.mpr hne
    exact iff_of_true ⟨hpos, hnb⟩ (Nat.zero_le _)
  | succ k =>
    have hends := hfound.endsWithLi_iff h.um_consistent (k := k)
    rw [Nat.succ_le_iff, ← hends, Reaches, UmEntity.EndsWithLi, h.sizeTo_um, length_um, um_nbBytesRequestedByMac]
    refine and_congr_right fun _ ↦ ?_
    omega

theorem dataPduSize_min (h : s.ConsistentQueue) (hnb : 3 ≤ s.nbBytesRequestedByMac) :
    s.dataPduSize = min s.nbBytesRequestedByMac (2 + lisSize (s.sizes.length - 1) + s.sizes.sum) := by
  have hall := h.sizeTo_um s.sizes.length
  have hmin := h.um_consistent.dataPduSize_eq
  rw [length_um, um_nbBytesRequestedByMac, hall, List.take_length] at hmin
  rw [h.dataPduSize_eq (by omega), hmin]
  omega

theorem fragments_iff (h : s.ConsistentQueue) (hnb : 3 ≤ s.nbBytesRequestedByMac) (hne : s.queue ≠ [])
    (hfound : s.um.Found reduced fr us') :
    (∀ k i, s.Reaches k → s.queue[k]? = some i → (s.inputSdus i).list.nbPdus.toNat < rlcAmMaxSduFragments) ↔
      ∀ i ∈ s.queue.take (fr.complete.length + 1), (s.inputSdus i).list.nbPdus.toNat < rlcAmMaxSduFragments := by
  constructor
  · intro hall i hi
    obtain ⟨k, hk, rfl⟩ := List.mem_take_iff_getElem.mp hi
    rw [Nat.lt_min] at hk
    exact hall k _ ((h.reaches_iff hnb hne hfound k).mpr (Nat.le_of_lt_succ hk.1)) (List.getElem?_eq_getElem hk.2)
  · intro hall k i hk hi
    have hle := (h.reaches_iff hnb hne hfound k).mp hk
    refine hall i (List.mem_of_getElem? (i := k) ?_)
    rw [List.getElem?_take, if_pos (Nat.lt_succ_of_le hle), hi]

/-- What the receiver reads belongs to what the sender has noted just where no bytes are behind the frame. -/
theorem exact_iff {pdu : Bytes} (h : s.ConsistentQueue) (hnb : 3 ≤ s.nbBytesRequestedByMac) (hne : s.queue ≠ [])
    (hsmall : ∀ i ∈ s.queue, (s.inputSdus i).sduSize < 2048) (hfound : s.um.Found reduced fr us')
    (hfew : fr.complete.length ≤ 127) (hsize : s.dataPduSize < rlcSduMaxSize) (hcarries : s.Carries reduced fr t pdu) :
    (∃ info, s.Exact t (t.pduOf s.vtS) pdu info) ↔ reduced = 0 := by
  obtain ⟨poll, spare, hspare, hpdu⟩ := hcarries.pdu_eq
  obtain ⟨hlength, -⟩ := hfound.packs.sizeTo_payload
  rw [um_inputSdus, txSdus_length] at hlength
  have htotal : s.dataPduSize = 2 + (lisSize fr.complete.length + fr.payload.length) + reduced := by
    have hdata := hfound.dataPduSize
    have hsizes := h.dataPduSize_eq (by omega)
    omega
  have hconsumed : s.consumed t = fr.payload.length := by
    have hsum := hcarries.remaining_eq
    rw [consumed]
    omega
  have hdrop : (t.pduOf s.vtS).sdusIndex.dropLast = s.queue.take fr.complete.length := by
    rw [hcarries.sdusIndex, List.dropLast_eq_take, List.length_take, Nat.min_eq_left hlength, List.take_take,
      Nat.succ_eq_add_one, Nat.add_sub_cancel, Nat.min_eq_left (Nat.le_succ _)]
  constructor
  · rintro ⟨info, hexact⟩
    have hheader := hexact.headerAndPayloadSize
    have hlis := congrArg List.length hexact.liList
    rw [List.length_map, hdrop, List.length_take, Nat.min_eq_left (Nat.le_of_lt hlength)] at hlis
    rw [hcarries.headerAndPayloadSize, hlis, hconsumed] at hheader
    omega
  · rintro rfl
    obtain rfl := List.length_eq_zero_iff.mp hspare
    have hmin := h.dataPduSize_min hnb
    have hmax : rlcSduMaxSize = 9000 := rfl
    have hbytes := AmPduInfo.encodePdu_length s.vtS poll ((s.inputSdus s.currentSduIndex).sduSegmentedSize = 0) fr
    have hsizes : fr.complete.map List.length = (s.queue.take fr.complete.length).map (s.part t) := by
      rw [hfound.packs.complete_sizes, um_inputSdus, txSdus, ← List.map_take, List.map_map]
      refine List.map_congr_left fun i hi ↦ ?_
      rw [part, hcarries.ended i hi, Nat.sub_zero]
      exact (h.waits i (List.mem_of_mem_take hi)).tx_remaining
    have hlis : ∀ segment ∈ fr.complete, segment.length < 2048 := by
      intro segment hsegment
      have hmem : segment.length ∈ fr.complete.map List.length := List.mem_map_of_mem hsegment
      rw [hsizes] at hmem
      obtain ⟨i, hi, hpart⟩ := List.mem_map.mp hmem
      have hqueue := List.mem_of_mem_take hi
      have hadd := (h.waits i hqueue).sizes_add
      have hsdu := hsmall i hqueue
      have hle : s.part t i ≤ (s.inputSdus i).sduRemainingSize := Nat.sub_le _ _
      omega
    obtain ⟨info, hinfo, hsn, hfi, hliList, hpayload, -⟩ := AmPduInfo.getDataPduInfos_encodePdu poll
      ((s.inputSdus s.currentSduIndex).sduSegmentedSize = 0) [] h.vtS_lt hlis (hfew.trans (by decide))
      (by rw [List.append_nil, hbytes]; omega)
    rw [← hpdu] at hinfo
    refine ⟨info, hinfo, ?_, ?_, ?_, ?_, ?_, ?_, ?_, ?_⟩
    · rw [hsn, hcarries.sn]
    · have hhead : (t.pduOf s.vtS).sdusIndex.head? = some s.currentSduIndex := by
        rw [hcarries.sdusIndex, List.head?_take, if_neg (Nat.succ_ne_zero _)]
        exact h.queue_head hne
      have hlast : (t.pduOf s.vtS).sdusIndex.getLast? = some s.queue[fr.complete.length] := by
        rw [hcarries.sdusIndex, List.getLast?_take, if_neg (Nat.succ_ne_zero _), Nat.add_sub_cancel,
          List.getElem?_eq_getElem hlength, Option.some_or]
      have hends := hcarries.last _ (List.getElem?_eq_getElem hlength)
      have hisNone : (t.inputSdus s.queue[fr.complete.length]).memBlock.isNone = fr.ends := by
        rw [Bool.eq_iff_iff, Option.isNone_iff_eq_none]
        exact hends
      rw [hfi, listedFi, hhead, hlast, Option.all_some, Option.all_some, hisNone]
    · rw [hliList, hdrop, hsizes]
    · rw [hpayload, hconsumed]
      simp
    · rw [hcarries.headerAndPayloadSize, hliList, List.length_map, hconsumed]
      omega
    · have hcut := hfound.packs.cut.payload_append
      rw [um_inputSdus, h.txSdus_rest] at hcut
      have hheader : (encodeLis (fr.complete.map List.length)).length = lisSize fr.complete.length := by
        rw [encodeLis_length, List.length_map]
      rw [hpdu, hconsumed, hliList, List.length_map, ← hcut, List.take_left, List.append_nil,
        AmPduInfo.encodePdu, Nat.add_comm 2, List.drop_succ_cons, List.drop_succ_cons, ← hheader, List.drop_left]
    · rw [hcarries.headerAndPayloadSize, hpdu, List.append_nil, hbytes]
      omega
    · rw [hpdu, List.append_nil, hbytes]
      omega

end ConsistentQueue

variable {now : ℕ} {block : ℕ → UInt8}

theorem buildsExactly_nil (hs : s.ConsistentQueue) (hqueue : s.queue = []) : s.BuildsExactly now block := by
  have hsegment : s.segment10 now block = some (s, none) := by
    rw [segment10]
    refine if_pos (Or.inl ?_)
    rw [hs.occupancy, sizes, hqueue, List.map_nil, List.sum_nil]
  exact ⟨s, none, hsegment, fun _ ↦ hqueue, fun _ hbytes ↦ absurd hbytes (by simp)⟩

theorem segmentable_nil (hqueue : s.queue = []) : s.Segmentable := by
  have hsizes : s.sizes = [] := by
    rw [sizes, hqueue, List.map_nil]
  refine ⟨?_, ?_, ?_⟩
  · rintro k ⟨hk, -⟩
    rw [hsizes] at hk
    cases hk
  · rintro k i - hi
    rw [hqueue] at hi
    cases hi
  · rw [hsizes]
    exact Nat.lt_of_le_of_lt (Nat.min_le_right _ _) (by decide)

/-- What `rlc_am_segment_10` builds is read back as it was noted, with the sizes of the SDUs that end in it and no
bytes that are not of the queue, exactly where the grant leaves no bytes and no assertion fails. -/
theorem buildsExactly_iff (now : ℕ) (block : ℕ → UInt8) (hs : s.ConsistentQueue) (hnb : 3 ≤ s.nbBytesRequestedByMac)
    (hsmall : ∀ i ∈ s.queue, (s.inputSdus i).sduSize < 2048) (hfew : ¬s.Reaches 128) :
    s.BuildsExactly now block ↔ s.Segmentable := by
  by_cases hne : s.queue = []
  · exact iff_of_true (buildsExactly_nil hs hne) (segmentable_nil hne)
  have hne' : s.um.inputSdus ≠ [] := by
    rw [um_inputSdus, ← List.length_pos_iff, txSdus_length]
    exact List.length_pos_iff.mpr hne
  obtain ⟨reduced, fr, us', hfound⟩ := hs.um_consistent.found (by rw [um_nbBytesRequestedByMac]; omega) hne'
  have hcomplete : fr.complete.length ≤ 127 := by
    have hreaches := (hs.reaches_iff hnb hne hfound 128).not.mp hfew
    omega
  have hleaves (k : ℕ) := (hs.leavesBytes_iff hnb k).trans (hfound.leavesBytes_iff hs.um_consistent (k := k))
  have hfragments := hs.fragments_iff hnb hne hfound
  have hsize := hs.dataPduSize_min hnb
  constructor
  · rintro ⟨t, pdu, hsegment, hbuilt, hexact⟩
    obtain ⟨hlisted, hlarge⟩ := hs.of_segment10 hnb hne hfound hcomplete hsegment
    obtain ⟨t', bytes, hsegment', hcarries, -⟩ := hs.segment10_eq now block hnb hne hfound hcomplete
      hlisted hlarge
    obtain ⟨rfl, rfl⟩ := Prod.mk.inj (Option.some.inj (hsegment.symm.trans hsegment'))
    have hreduced := (hs.exact_iff hnb hne hsmall hfound hcomplete hlarge hcarries).mp (hexact bytes rfl)
    refine ⟨fun k hk ↦ ?_, hfragments.mpr hlisted, hsize ▸ hlarge⟩
    have hpos := ((hleaves k).mp hk).1
    omega
  · rintro ⟨hbytes, hfrags, hlarge⟩
    have hlisted := hfragments.mp hfrags
    rw [← hsize] at hlarge
    obtain ⟨t, bytes, hsegment, hcarries, -⟩ := hs.segment10_eq now block hnb hne hfound hcomplete
      hlisted hlarge
    refine ⟨t, some bytes, hsegment, fun hnone ↦ absurd hnone (Option.some_ne_none _), ?_⟩
    intro bytes' hbytes'
    obtain rfl := Option.some.inj hbytes'
    have hreduced : reduced = 0 := by
      by_contra hne
      exact hbytes _ ((hleaves fr.complete.length).mpr ⟨Nat.pos_of_ne_zero hne, rfl⟩)
    exact (hs.exact_iff hnb hne hsmall hfound hcomplete hlarge hcarries).mpr hreduced

/-- Two SDUs of three and two bytes wait, and the grant has a place for all of them. -/
def threeAndTwo : AmTransmitter :=
  { ((start 4 1000 40).dataReq ⟨0, [1, 2, 3], by decide, by decide⟩).dataReq ⟨1, [4, 5], by decide, by decide⟩ with
    nbBytesRequestedByMac := 20 }

theorem threeAndTwo_queue : threeAndTwo.queue = [0, 1] := by
  decide +kernel

theorem threeAndTwo_consistent : threeAndTwo.ConsistentQueue where
  current_lt := by decide
  vtS_lt := by decide
  waits := by
    rw [threeAndTwo_queue]
    intro i hi
    rw [List.mem_pair] at hi
    rcases hi with rfl | rfl
    · exact ⟨rfl, rfl, by decide⟩
    · exact ⟨rfl, rfl, by decide⟩
  occupancy := by
    rw [sizes, threeAndTwo_queue]
    rfl
  nbSduNoSegmented_eq := by
    rw [threeAndTwo_queue]
    rfl

theorem threeAndTwo_sizes : threeAndTwo.sizes = [3, 2] := by
  rw [sizes, threeAndTwo_queue]
  rfl

theorem threeAndTwo_buildsExactly : threeAndTwo.BuildsExactly 0 fun _ ↦ 0 := by
  refine (buildsExactly_iff 0 (fun _ ↦ 0) threeAndTwo_consistent (by decide) ?_ ?_).mpr ⟨?_, ?_, ?_⟩
  · rw [threeAndTwo_queue]
    decide
  · rintro ⟨hk, -⟩
    rw [threeAndTwo_sizes] at hk
    exact absurd hk (by decide)
  · rintro k ⟨hk, -, hleft⟩
    rw [threeAndTwo_sizes] at hk hleft
    have hzero : k = 0 := by
      have htwo : k + 1 < 2 := hk
      omega
    subst hzero
    exact absurd hleft (by decide)
  · rintro k i - hi
    rw [threeAndTwo_queue] at hi
    have hmem := List.mem_of_getElem? hi
    rw [List.mem_pair] at hmem
    rcases hmem with rfl | rfl
    · decide
    · decide
  · rw [threeAndTwo_sizes]
    decide

end AmTransmitter

end EdgeSlice.Rlc
