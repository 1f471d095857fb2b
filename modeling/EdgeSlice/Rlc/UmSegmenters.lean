import EdgeSlice.Rlc.UmGrant
import EdgeSlice.Rlc.UmRoundTrip
import EdgeSlice.Rlc.UmSegment

namespace EdgeSlice.Rlc

open BitField ByteMemory Segmentation

namespace DryPass

/-- The pass differs from that of `rlc_um_segment_5` in the size of the PDU only. -/
theorem loop10_dataPduSize (sdus : List TxSdu) (d : DryPass) (n : ℕ) :
    loop10 sdus { d with dataPduSize := n } = { loop sdus d with dataPduSize := n } := by
  induction sdus generalizing d with
  | nil => rfl
  | cons sdu sdus ih =>
    rw [loop10, loop]
    split_ifs with hgt heq hexact hlt
    · rfl
    · rfl
    · rfl
    · exact ih (d.addLi sdu.sduRemainingSize)
    · rfl

end DryPass

namespace UmEntity

variable {s r : UmEntity} {f : Frame UInt8} {sdu : TxSdu} {sdus sdus' : List TxSdu} {reduced : ℕ}

theorem pdu10B1_toNat {fi : UInt8} (hfi : fi.toNat < 4) (li : Bool) (vtUs : UInt16) :
    (pdu10B1 fi li vtUs).toNat = fi.toNat * 8 + li.toNat * 4 + vtUs.toNat / 256 % 4 := by
  have hlow : ((vtUs >>> 8) &&& 0x03).toUInt8.toNat = vtUs.toNat / 256 % 4 := by
    have hmask : (vtUs.toNat >>> 8) &&& 0x03 = (vtUs.toNat >>> 8) % 2 ^ 2 :=
      Nat.and_two_pow_sub_one_eq_mod _ 2
    have hshift := Nat.shiftRight_eq_div_pow vtUs.toNat 8
    rw [UInt16.toNat_toUInt8, UInt16.toNat_and, UInt16.toNat_shiftRight]
    change ((vtUs.toNat >>> 8) &&& 0x03) % 2 ^ 8 = _
    omega
  have hli := Bool.toNat_le li
  have hhigh : fi <<< 3 ||| (if li then 0x04 else 0) = UInt8.ofNat ((fi.toNat * 2 + li.toNat) * 2 ^ 2) := by
    have hshift : fi <<< 3 = UInt8.ofNat (fi.toNat * 2 ^ 3) := by
      apply UInt8.toNat_inj.mp
      rw [ofNat_toNat (by omega), UInt8.toNat_shiftLeft, Nat.shiftLeft_eq]
      change fi.toNat * 2 ^ 3 % 2 ^ 8 = _
      omega
    have hflag : (if li then (0x04 : UInt8) else 0).toNat = li.toNat * 4 := by
      cases li with
      | true => rfl
      | false => rfl
    apply UInt8.toNat_inj.mp
    rw [hshift, join_toNat (by omega) (by omega), hflag, ofNat_toNat (by omega)]
    omega
  rw [pdu10B1, hhigh, join_toNat (by omega) (by omega), hlow]
  omega

theorem header_pdu10B1 {fi : UInt8} (hfi : fi.toNat < 4) (li : Bool) (vtUs : UInt16) (body : Bytes)
    (hlength : r.rxSnLength = 10) :
    r.header (pdu10B1 fi li vtUs :: body) = (UInt8.ofNat li.toNat, fi, 2) := by
  have hb1 := pdu10B1_toNat hfi li vtUs
  have hli := Bool.toNat_le li
  have he : ((pdu10B1 fi li vtUs &&& 0x04) >>> 2).toNat = (pdu10B1 fi li vtUs).toNat / 4 % 2 :=
    field_toNat _ (k := 2) (w := 1) (by decide) (by decide)
  have hfield : ((pdu10B1 fi li vtUs &&& 0x18) >>> 3).toNat = (pdu10B1 fi li vtUs).toNat / 8 % 4 :=
    field_toNat _ (k := 3) (w := 2) (by decide) (by decide)
  rw [header, if_pos hlength, List.getD_cons_zero]
  refine Prod.ext ?_ (Prod.ext ?_ rfl)
  · apply UInt8.toNat_inj.mp
    rw [he, hb1, ofNat_toNat (by omega)]
    omega
  · apply UInt8.toNat_inj.mp
    change _ = fi.toNat
    rw [hfield, hb1]
    omega

/-- A PDU with a sequence number of ten bits, and the frame in it. -/
def encodePdu10 (vtUs : UInt16) (fiFirst : Bool) (f : Frame UInt8) : Bytes :=
  pdu10B1 (framingInfo fiFirst f.ends) (f.complete.length > 0) vtUs :: pdu10B2 vtUs ::
    (encodeLis (f.complete.map List.length) ++ f.payload)

theorem encodePdu_length (vtUs : UInt16) (fiFirst : Bool) (f : Frame UInt8) :
    (encodePdu vtUs fiFirst f).length = 1 + (lisSize f.complete.length + f.payload.length) := by
  rw [encodePdu, List.length_cons, List.length_append, encodeLis_length, List.length_map, Nat.add_comm]

theorem encodePdu10_length (vtUs : UInt16) (fiFirst : Bool) (f : Frame UInt8) :
    (encodePdu10 vtUs fiFirst f).length = 2 + (lisSize f.complete.length + f.payload.length) := by
  rw [encodePdu10, List.length_cons, List.length_cons, List.length_append, encodeLis_length,
    List.length_map]
  omega

theorem sn10_dataPduSize (s : UmEntity) : s.sn10.dataPduSize = s.dataPduSize + 1 := by
  rw [dataPduSize, dataPduSize]
  change (if s.nbBytesRequestedByMac + 1 ≥ s.bufferOccupancy + (s.txHeaderMinLengthInBytes + 1) +
      maxLiOverhead s.inputSdus.length then _ else s.nbBytesRequestedByMac + 1) = _
  by_cases hall : s.nbBytesRequestedByMac ≥ s.bufferOccupancy + s.txHeaderMinLengthInBytes +
      maxLiOverhead s.inputSdus.length
  · rw [if_pos hall, if_pos (by omega)]
    change s.bufferOccupancy + (s.txHeaderMinLengthInBytes + 1) + maxLiOverhead s.inputSdus.length = _
    omega
  · rw [if_neg hall, if_neg (by omega)]

/-- The PDU carries the frame, and behind it as many bytes as it should have been smaller. -/
theorem Found.segment10 (block : ℕ → UInt8) (h : s.Found reduced f sdus')
    (hnb : 2 ≤ s.nbBytesRequestedByMac) (hsdus : s.inputSdus = sdu :: sdus) :
    ∃ spare : Bytes, spare.length = reduced ∧ s.sn10.segment10 block =
      ({ s.sn10 with
          inputSdus := sdus'
          bufferOccupancy := s.bufferOccupancy - f.payload.length
          vtUs := s.vtUs + 1 },
        some ⟨encodePdu10 s.vtUs (sdu.sduRemainingSize = sdu.sduSize) f ++ spare,
          f.complete.length + 1⟩) := by
  have hrun : DryPass.run10 s.sn10.dataPduSize 2 s.inputSdus =
      { DryPass.loop s.inputSdus s.firstPass with dataPduSize := s.dataPduSize + 1 } := by
    rw [DryPass.run10, sn10_dataPduSize]
    change DryPass.dropLi (DryPass.loop10 s.inputSdus { s.firstPass with
      dataPduSize := s.dataPduSize + 1 }) = _
    rw [DryPass.loop10_dataPduSize, DryPass.dropLi]
    exact if_neg (by
      change ¬(DryPass.loop s.inputSdus s.firstPass).testRemainingNumLiToSubstract > 0
      rw [h.finds.noLi]
      exact Nat.lt_irrefl 0)
  obtain ⟨hnum, hnumSdu, hrunSize, -⟩ := h.pass
  let g := startFilling10 block f.complete.length (s.dataPduSize - 1 - reduced) s.bufferOccupancy
  obtain ⟨hloop, hfilled⟩ := h.filled (g := g) rfl rfl rfl rfl
  generalize (Filling.loop f.complete.length s.inputSdus g).1 = f' at hloop hfilled
  have hnb' : ¬s.sn10.nbBytesRequestedByMac < 3 := by
    change ¬s.nbBytesRequestedByMac + 1 < 3
    omega
  have hsize : s.dataPduSize + 1 = 2 + (lisSize f.complete.length + f.payload.length) + reduced := by
    have hsize := h.dataPduSize
    omega
  let header : Bytes := [pdu10B1 (framingInfo (sdu.sduRemainingSize = sdu.sduSize) f.ends)
    (f.complete.length > 0) s.vtUs, pdu10B2 s.vtUs]
  have hload : load (store f'.pdu 0 header) 0 (2 + (lisSize f.complete.length + f.payload.length)) =
      header ++ (encodeLis (f.complete.map List.length) ++ f.payload) :=
    load_filled header hfilled rfl rfl rfl
  have hall := load_add (store f'.pdu 0 header) 0 (2 + (lisSize f.complete.length + f.payload.length))
    reduced
  rw [hload, ← hsize] at hall
  refine ⟨load (store f'.pdu 0 header) (0 + (2 + (lisSize f.complete.length + f.payload.length)))
    reduced, load_length _ _ _, ?_⟩
  have hqueue : s.sn10.inputSdus = s.inputSdus := rfl
  have hg : startFilling10 block f.complete.length (s.dataPduSize - 1 - reduced)
      s.sn10.bufferOccupancy = g := rfl
  rw [UmEntity.segment10, if_neg hnb', hqueue]
  simp only [hsdus] at hrun hnum hnumSdu hloop hrunSize ⊢
  rw [hrun]
  simp only [hnum, hnumSdu, hrunSize, hg, hloop, hfilled.fiLast, hfilled.fillNumLi,
    hfilled.pduRemainingSize, hfilled.bufferOccupancy, Nat.sub_zero]
  exact congrArg (fun data ↦ (_, some (TxPdu.mk data _))) hall

/-- Framing info, length indicators and data of the two PDUs are the same, and there is nothing
else in them. -/
structure SamePdu (s : UmEntity) (copied : ℕ) (pdu pdu10 : TxPdu) : Prop where
  numFillSdu : pdu10.numFillSdu = pdu.numFillSdu
  e : (s.sn10.header pdu10.data).1 = (({ s with rxSnLength := 5 } : UmEntity).header pdu.data).1
  fi : (s.sn10.header pdu10.data).2.1 = (({ s with rxSnLength := 5 } : UmEntity).header pdu.data).2.1
  body : pdu10.data.drop 2 = pdu.data.drop 1
  tbSize : pdu.data.length = 1 + lisSize (pdu.numFillSdu - 1) + copied
  tbSize10 : pdu10.data.length = 2 + lisSize (pdu10.numFillSdu - 1) + copied

/-- The two functions take the same bytes from the queue, and hand over PDUs with the same content
or none. -/
structure Agree (s : UmEntity) (r r10 : UmEntity × Option TxPdu) : Prop where
  inputSdus : r10.1.inputSdus = r.1.inputSdus
  bufferOccupancy : r10.1.bufferOccupancy = r.1.bufferOccupancy
  pdu : Option.Rel (s.SamePdu (s.bufferOccupancy - r.1.bufferOccupancy)) r.2 r10.2

theorem Agree.tbSize10 {r' r10 : UmEntity × Option TxPdu} (h : s.Agree r' r10) :
    ∀ pdu10 ∈ r10.2, pdu10.data.length =
      2 + lisSize (pdu10.numFillSdu - 1) + (s.bufferOccupancy - r'.1.bufferOccupancy) := by
  intro pdu10 hpdu10
  have hrel := h.pdu
  rw [Option.mem_def.mp hpdu10] at hrel
  generalize r'.2 = pdu at hrel
  cases hrel with
  | some hpdu => exact hpdu.tbSize10

theorem segment5_idle (block : ℕ → UInt8) (h : s.inputSdus = []) : s.segment5 block = (s, none) := by
  rw [segment5]
  split_ifs
  · rfl
  · simp only [h]

theorem segment10_idle (block : ℕ → UInt8) (h : s.inputSdus = []) : s.segment10 block = (s, none) := by
  rw [segment10]
  split_ifs
  · rfl
  · simp only [h]

theorem samePdu_iff {copied : ℕ} (fiFirst : Bool) (spare : Bytes) (hcopied : copied = f.payload.length) :
    s.SamePdu copied ⟨encodePdu s.vtUs fiFirst f, f.complete.length + 1⟩
      ⟨encodePdu10 s.vtUs fiFirst f ++ spare, f.complete.length + 1⟩ ↔ spare.length = 0 := by
  have hfi := framingInfo_lt fiFirst f.ends
  have hheader := header_pduB1 hfi (f.complete.length > 0) s.vtUs
    (encodeLis (f.complete.map List.length) ++ f.payload) (r := { s with rxSnLength := 5 }) rfl
  have hheader10 := header_pdu10B1 hfi (f.complete.length > 0) s.vtUs
    (pdu10B2 s.vtUs :: (encodeLis (f.complete.map List.length) ++ f.payload) ++ spare)
    (r := s.sn10) rfl
  have hlen := encodePdu_length s.vtUs fiFirst f
  have hlen10 := encodePdu10_length s.vtUs fiFirst f
  constructor
  · intro h
    have htb := h.tbSize10
    rw [List.length_append, hlen10, Nat.add_sub_cancel, hcopied] at htb
    omega
  · intro h
    obtain rfl := List.length_eq_zero_iff.mp h
    refine ⟨rfl, ?_, ?_, ?_, ?_, ?_⟩
    · exact (congrArg Prod.fst hheader10).trans (congrArg Prod.fst hheader).symm
    · exact (congrArg (·.2.1) hheader10).trans (congrArg (·.2.1) hheader).symm
    · rw [List.append_nil]
      rfl
    · rw [hlen, Nat.add_sub_cancel, hcopied]
      omega
    · rw [List.append_nil, hlen10, Nat.add_sub_cancel, hcopied]
      omega

/-- With the byte of the longer header granted to it `rlc_um_segment_10` does what
`rlc_um_segment_5` does exactly where the grant does not leave bytes that no length indicator
fits. -/
theorem segmenters_agree_iff (block block10 : ℕ → UInt8) (h : s.Consistent)
    (hnb : 2 ≤ s.nbBytesRequestedByMac) :
    s.Agree (s.segment5 block) (s.sn10.segment10 block10) ↔ ∀ k, ¬s.LeavesBytes k := by
  cases hsdus : s.inputSdus with
  | nil =>
    have hsdus10 : s.sn10.inputSdus = [] := hsdus
    rw [segment5_idle block hsdus, segment10_idle block10 hsdus10]
    refine iff_of_true ⟨rfl, rfl, .none⟩ fun k hk ↦ ?_
    have hlt := hk.1
    rw [hsdus] at hlt
    exact absurd hlt (Nat.not_lt_zero _)
  | cons sdu sdus =>
    obtain ⟨reduced, f, sdus', hfound⟩ := h.found hnb (by rw [hsdus]; exact List.cons_ne_nil _ _)
    obtain ⟨spare, hspare, hsegment10⟩ := hfound.segment10 block10 hnb hsdus
    have hcopied : s.bufferOccupancy - (s.bufferOccupancy - f.payload.length) = f.payload.length := by
      have hpayload := hfound.packs.payload_length
      rw [← h.bufferOccupancy] at hpayload
      omega
    have hsame := samePdu_iff (s := s) (f := f) (sdu.sduRemainingSize = sdu.sduSize) spare hcopied
    rw [hfound.segment5 block hnb hsdus, hsegment10]
    constructor
    · rintro ⟨-, -, hpdu⟩ k hk
      obtain ⟨hreduced, -⟩ := (hfound.leavesBytes_iff h).mp hk
      cases hpdu with
      | some hpdu =>
        have hzero := hsame.mp hpdu
        omega
    · intro hno
      have hreduced : ¬0 < reduced := fun hpos ↦
        hno f.complete.length ((hfound.leavesBytes_iff h).mpr ⟨hpos, rfl⟩)
      exact ⟨rfl, rfl, .some (hsame.mpr (by omega))⟩

/-- Two SDUs of three and two bytes, and a grant that leaves two bytes behind the first. -/
def twoSdusSix : UmEntity := { twoSdus with nbBytesRequestedByMac := 6 }

theorem twoSdusSix_disagree : twoSdusSix.Consistent ∧
    ¬twoSdusSix.Agree (twoSdusSix.segment5 fun _ ↦ 0) (twoSdusSix.sn10.segment10 fun _ ↦ 0) := by
  refine ⟨⟨rfl, rfl, by decide⟩, fun h ↦ ?_⟩
  obtain ⟨pdu10, hpdu10⟩ : ∃ pdu10, (twoSdusSix.sn10.segment10 fun _ ↦ 0).2 = some pdu10 := ⟨_, rfl⟩
  have hsize := h.tbSize10 pdu10 hpdu10
  have hseven : (twoSdusSix.sn10.segment10 fun _ ↦ 0).2.map (fun pdu ↦ (pdu.data.length, pdu.numFillSdu)) =
      some (7, 1) := rfl
  have hthree : (twoSdusSix.segment5 fun _ ↦ 0).1.bufferOccupancy = 2 := rfl
  rw [hpdu10] at hseven
  obtain ⟨hlen, hnum⟩ := Prod.mk.inj (Option.some.inj hseven)
  rw [hlen, hnum, hthree] at hsize
  exact absurd hsize (by decide)

/-- A grant that ends with the first SDU. -/
def twoSdusFour : UmEntity := { twoSdus with nbBytesRequestedByMac := 4 }

theorem twoSdusFour_agree :
    twoSdusFour.Agree (twoSdusFour.segment5 fun _ ↦ 0) (twoSdusFour.sn10.segment10 fun _ ↦ 0) := by
  refine (segmenters_agree_iff _ _ ⟨rfl, rfl, by decide⟩ (by decide)).mpr fun k hk ↦ ?_
  obtain ⟨hk, hplace, -⟩ := hk
  have hzero : k = 0 := by
    have hlength : twoSdusFour.inputSdus.length = 2 := rfl
    omega
  subst hzero
  exact absurd hplace (by decide)

end UmEntity

end EdgeSlice.Rlc
