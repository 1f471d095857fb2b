import EdgeSlice.Rlc.UmLengthIndicators
import EdgeSlice.Rlc.UmSegment
import EdgeSlice.Segmentation

namespace EdgeSlice.Rlc

open Segmentation

namespace TxSdu

theorem rest_length (sdu : TxSdu) : sdu.rest.length = sdu.sduRemainingSize := by
  have hsizes := sdu.sizes_add
  rw [rest, List.length_drop, sdu.size_eq]
  omega

theorem advance_rest (sdu : TxSdu) {n : ℕ} (h : n ≤ sdu.sduRemainingSize) :
    (sdu.advance n h).rest = sdu.rest.drop n := List.drop_drop.symm

end TxSdu

/-- A frame of exactly `room` bytes takes the SDUs from the head of the queue, where the last
length indicator before it had `li` bytes. -/
inductive Packs : ℕ → ℕ → List TxSdu → Frame UInt8 → List TxSdu → Prop
  | part (li room : ℕ) (sdu : TxSdu) (sdus : List TxSdu) (hpos : 0 < room)
      (h : room < sdu.sduRemainingSize) :
      Packs li room (sdu :: sdus) ⟨[], sdu.rest.take room, false⟩ (sdu.advance room (Nat.le_of_lt h) :: sdus)
  | whole (li : ℕ) (sdu : TxSdu) (sdus : List TxSdu) (hpos : 0 < sdu.sduRemainingSize) :
      Packs li sdu.sduRemainingSize (sdu :: sdus) ⟨[], sdu.rest, true⟩ sdus
  | more {li room : ℕ} (sdu : TxSdu) {sdus sdus' : List TxSdu} {f : Frame UInt8}
      (h : Packs (li ^^^ 3) room sdus f sdus') :
      Packs li (sdu.sduRemainingSize + (li ^^^ 3) + room) (sdu :: sdus)
        ⟨sdu.rest :: f.complete, f.last, f.ends⟩ sdus'

variable {li room : ℕ} {sdus sdus' : List TxSdu} {f : Frame UInt8}

namespace Packs

theorem room_pos (h : Packs li room sdus f sdus') : 0 < room := by
  induction h with
  | part li room sdu sdus hpos h => exact hpos
  | whole li sdu sdus hpos => exact hpos
  | more sdu h ih => omega

theorem last_pos (h : Packs li room sdus f sdus') : 0 < f.last.length := by
  induction h with
  | part li room sdu sdus hpos h =>
    rw [List.length_take, sdu.rest_length]
    omega
  | whole li sdu sdus hpos =>
    rw [sdu.rest_length]
    exact hpos
  | more sdu h ih => exact ih

theorem cut (h : Packs li room sdus f sdus') : Cut (sdus.map (·.rest)) f (sdus'.map (·.rest)) := by
  induction h with
  | part li room sdu sdus hpos h =>
    rw [List.map_cons, List.map_cons, sdu.advance_rest]
    have hsplit := List.take_append_drop room sdu.rest
    have hcut := Cut.part (sdu.rest.take room) (sdu.rest.drop room) (sdus.map (·.rest))
    rw [hsplit] at hcut
    exact hcut
  | whole li sdu sdus hpos => exact .whole _ _
  | more sdu h ih => exact .more _ ih

/-- The SDUs that end in the frame leave the queue. -/
theorem data (h : Packs li room sdus f sdus') :
    ∃ done : List Bytes, sdus.map (·.data) = done ++ sdus'.map (·.data) ∧
      done.length = f.complete.length + f.ends.toNat := by
  induction h with
  | part li room sdu sdus hpos h => exact ⟨[], rfl, rfl⟩
  | whole li sdu sdus hpos => exact ⟨[sdu.data], rfl, rfl⟩
  | more sdu h ih =>
    obtain ⟨done, hdata, hlen⟩ := ih
    refine ⟨sdu.data :: done, ?_, ?_⟩
    · rw [List.map_cons, hdata, List.cons_append]
    · rw [List.length_cons, hlen]
      exact Nat.add_right_comm _ _ _

theorem remaining_pos (h : Packs li room sdus f sdus') (hpos : ∀ sdu ∈ sdus, 0 < sdu.sduRemainingSize) :
    ∀ sdu ∈ sdus', 0 < sdu.sduRemainingSize := by
  induction h with
  | part li room sdu sdus hpos' h =>
    have hleft : 0 < (sdu.advance room (Nat.le_of_lt h)).sduRemainingSize := Nat.sub_pos_of_lt h
    exact List.forall_mem_cons.mpr ⟨hleft, (List.forall_mem_cons.mp hpos).2⟩
  | whole li sdu sdus hpos' => exact (List.forall_mem_cons.mp hpos).2
  | more sdu h ih => exact ih (List.forall_mem_cons.mp hpos).2

theorem complete_mem (h : Packs li room sdus f sdus') :
    ∀ segment ∈ f.complete, ∃ sdu ∈ sdus, sdu.rest = segment := by
  induction h with
  | part li room sdu sdus hpos h => exact fun _ hmem ↦ absurd hmem List.not_mem_nil
  | whole li sdu sdus hpos => exact fun _ hmem ↦ absurd hmem List.not_mem_nil
  | more sdu h ih =>
    intro segment hsegment
    rcases List.mem_cons.mp hsegment with rfl | hmem
    · exact ⟨sdu, List.mem_cons_self, rfl⟩
    · obtain ⟨sdu', hsdu', hrest⟩ := ih segment hmem
      exact ⟨sdu', List.mem_cons_of_mem _ hsdu', hrest⟩

theorem payload_length (h : Packs li room sdus f sdus') :
    (sdus.map (·.sduRemainingSize)).sum = f.payload.length + (sdus'.map (·.sduRemainingSize)).sum := by
  have hsum := h.cut.payload_length
  simpa only [List.map_map, Function.comp_def, TxSdu.rest_length] using hsum

end Packs

/-- The bytes of so many length indicators behind one of `li` bytes. -/
def liBytes (li : ℕ) : ℕ → ℕ
  | 0 => 0
  | n + 1 => (li ^^^ 3) + liBytes (li ^^^ 3) n

theorem li_xor (h : li = 1 ∨ li = 2) : li ^^^ 3 = 3 - li := by
  rcases h with rfl | rfl
  · rfl
  · rfl

theorem liBytes_eq (n : ℕ) : liBytes 1 n = (n * 3 + 1) / 2 ∧ liBytes 2 n = n * 3 / 2 := by
  induction n with
  | zero => exact ⟨rfl, rfl⟩
  | succ n ih =>
    obtain ⟨hone, htwo⟩ := ih
    have hone' : liBytes 1 (n + 1) = 2 + liBytes 2 n := rfl
    have htwo' : liBytes 2 (n + 1) = 1 + liBytes 1 n := rfl
    omega

theorem payload_cons (sdu : TxSdu) (f : Frame UInt8) :
    (Frame.payload ⟨sdu.rest :: f.complete, f.last, f.ends⟩).length =
      sdu.sduRemainingSize + f.payload.length := by
  rw [Frame.payload, List.flatten_cons, List.append_assoc, List.length_append, sdu.rest_length]
  rfl

theorem Packs.room_eq (h : Packs li room sdus f sdus') :
    room = f.payload.length + liBytes li f.complete.length := by
  induction h with
  | part li room sdu sdus hpos h =>
    rw [Frame.payload, List.flatten_nil, List.nil_append, List.length_take, sdu.rest_length]
    exact (Nat.min_eq_left (Nat.le_of_lt h)).symm
  | whole li sdu sdus hpos =>
    rw [Frame.payload, List.flatten_nil, List.nil_append, sdu.rest_length]
    rfl
  | @more li room sdu sdus sdus' f h ih =>
    have hbytes : liBytes li (f.complete.length + 1) =
        (li ^^^ 3) + liBytes (li ^^^ 3) f.complete.length := rfl
    rw [payload_cons, List.length_cons, hbytes]
    omega

namespace DryPass

/-- What the pass finds out for the SDUs that fill a PDU, which is made smaller by `reduced`
bytes. -/
structure Finds (d : DryPass) (reduced : ℕ) (f : Frame UInt8) (d' : DryPass) : Prop where
  pduRemainingSize : d'.pduRemainingSize = d.pduRemainingSize - reduced
  dataPduSize : d'.dataPduSize = d.dataPduSize - reduced
  testNumLi : d'.testNumLi = d.testNumLi + f.complete.length
  numFillSdu : d'.numFillSdu = d.numFillSdu + (f.complete.length + 1)
  noLi : d'.testRemainingNumLiToSubstract = 0

theorem finds_stop (d : DryPass) (reduced : ℕ) (last : Bytes) (ends : Bool) :
    d.Finds reduced ⟨[], last, ends⟩ (d.stop reduced) := ⟨rfl, rfl, rfl, rfl, rfl⟩

theorem Finds.addLi {d d' : DryPass} {size reduced : ℕ} (segment : Bytes)
    (h : (d.addLi size).Finds reduced f d') :
    d.Finds reduced ⟨segment :: f.complete, f.last, f.ends⟩ d' where
  pduRemainingSize := h.pduRemainingSize
  dataPduSize := h.dataPduSize
  testNumLi := by
    have hnum : d'.testNumLi = d.testNumLi + 1 + f.complete.length := h.testNumLi
    rw [hnum, List.length_cons]
    omega
  numFillSdu := by
    have hnum : d'.numFillSdu = d.numFillSdu + 1 + (f.complete.length + 1) := h.numFillSdu
    rw [hnum, List.length_cons]
    omega
  noLi := h.noLi

/-- The pass ends at an SDU that fills the PDU as long as the PDU is not larger than all SDUs with
their length indicators. Where the PDU is made smaller an SDU ends in it, and one more length
indicator would leave no room for data. -/
theorem loop_packs_reduced {d : DryPass} (hne : sdus ≠ []) (hpos : ∀ sdu ∈ sdus, 0 < sdu.sduRemainingSize)
    (hli : d.testLiLengthInBytes = 1 ∨ d.testLiLengthInBytes = 2) (hroom : 0 < d.testPduRemainingSize)
    (hcap : d.testPduRemainingSize ≤
      (sdus.map (·.sduRemainingSize)).sum + liBytes d.testLiLengthInBytes (sdus.length - 1)) :
    ∃ reduced f sdus', Packs d.testLiLengthInBytes (d.testPduRemainingSize - reduced) sdus f sdus' ∧
      d.Finds reduced f (loop sdus d) ∧ (0 < reduced → f.ends = true) ∧
      d.testPduRemainingSize ≤ f.payload.length + liBytes d.testLiLengthInBytes (f.complete.length + 1) := by
  induction sdus generalizing d with
  | nil => exact absurd rfl hne
  | cons sdu sdus ih =>
    obtain ⟨hsdu, hsdus⟩ := List.forall_mem_cons.mp hpos
    have hxor := li_xor hli
    have hone : liBytes d.testLiLengthInBytes 1 = d.testLiLengthInBytes ^^^ 3 := rfl
    have hwhole : (Frame.payload ⟨[], sdu.rest, true⟩).length = sdu.sduRemainingSize := sdu.rest_length
    rw [loop]
    split_ifs with hgt heq hexact hlt
    · refine ⟨0, _, _, .part _ _ sdu sdus hroom hgt, d.finds_stop 0 (sdu.rest.take _) false,
        fun h ↦ absurd h (Nat.lt_irrefl 0), ?_⟩
      rw [Frame.payload, List.flatten_nil, List.nil_append, List.length_take, sdu.rest_length]
      omega
    · refine ⟨0, _, sdus, ?_, d.finds_stop 0 sdu.rest true, fun _ ↦ rfl, ?_⟩
      · rw [Nat.sub_zero, ← heq]
        exact .whole _ sdu sdus hsdu
      · rw [hwhole]
        exact heq.ge.trans (Nat.le_add_right _ _)
    · refine ⟨_, _, sdus, ?_, d.finds_stop _ sdu.rest true, fun _ ↦ rfl, ?_⟩
      · rw [← hexact, Nat.add_sub_cancel]
        exact .whole _ sdu sdus hsdu
      · rw [hwhole]
        exact hexact.ge
    · have hnil : sdus ≠ [] := by
        rintro rfl
        simp only [List.map_cons, List.map_nil, List.sum_cons, List.sum_nil, List.length_singleton,
          Nat.sub_self, liBytes] at hcap
        omega
      obtain ⟨n, hn⟩ := Nat.exists_eq_add_one.mpr (List.length_pos_iff.mpr hnil)
      have hli' : (d.addLi sdu.sduRemainingSize).testLiLengthInBytes = 1 ∨
          (d.addLi sdu.sduRemainingSize).testLiLengthInBytes = 2 := by
        change (d.testLiLengthInBytes ^^^ 3) = 1 ∨ (d.testLiLengthInBytes ^^^ 3) = 2
        omega
      have hroom' : (d.addLi sdu.sduRemainingSize).testPduRemainingSize =
          d.testPduRemainingSize - (sdu.sduRemainingSize + (d.testLiLengthInBytes ^^^ 3)) := rfl
      have hcap' : (d.addLi sdu.sduRemainingSize).testPduRemainingSize ≤
          (sdus.map (·.sduRemainingSize)).sum +
            liBytes (d.addLi sdu.sduRemainingSize).testLiLengthInBytes (sdus.length - 1) := by
        rw [List.map_cons, List.sum_cons, List.length_cons, Nat.add_sub_cancel, hn, liBytes] at hcap
        rw [hroom', hn, Nat.add_sub_cancel]
        change _ ≤ _ + liBytes (d.testLiLengthInBytes ^^^ 3) n
        omega
      obtain ⟨reduced, f, sdus', hpacks, hfinds, hends, hbound⟩ := ih hnil hsdus hli' (by omega) hcap'
      have hpos' := hpacks.room_pos
      refine ⟨reduced, _, sdus', ?_, hfinds.addLi sdu.rest, hends, ?_⟩
      · have hmore := Packs.more sdu hpacks
        have hsum : sdu.sduRemainingSize + (d.testLiLengthInBytes ^^^ 3) +
            ((d.addLi sdu.sduRemainingSize).testPduRemainingSize - reduced) =
              d.testPduRemainingSize - reduced := by
          omega
        rw [hsum] at hmore
        exact hmore
      · have hbytes : liBytes d.testLiLengthInBytes (f.complete.length + 1 + 1) =
            (d.testLiLengthInBytes ^^^ 3) +
              liBytes (d.addLi sdu.sduRemainingSize).testLiLengthInBytes (f.complete.length + 1) := rfl
        rw [payload_cons, List.length_cons, hbytes]
        omega
    · -- one byte is left, which no length indicator fits
      refine ⟨1, _, sdus, ?_, d.finds_stop 1 sdu.rest true, fun _ ↦ rfl, ?_⟩
      · have hleft : d.testPduRemainingSize - 1 = sdu.sduRemainingSize := by omega
        rw [hleft]
        exact .whole _ sdu sdus hsdu
      · rw [hwhole]
        change d.testPduRemainingSize ≤ _ + liBytes d.testLiLengthInBytes 1
        omega

end DryPass

end EdgeSlice.Rlc

namespace EdgeSlice.Rlc

open ByteMemory Function Segmentation

/-- The rest of a triple of which the first length indicator is written. -/
def encodeSecond (b2 : UInt8) : List ℕ → Bytes
  | [] => [b2]
  | li :: lis => eLiB2' b2 (lis ≠ []) li :: eLiB3 li :: encodeLis lis

theorem encodeLis_cons (li : ℕ) (lis : List ℕ) :
    encodeLis (li :: lis) = eLiB1 (lis ≠ []) li :: encodeSecond (eLiB2 li) lis := by
  cases lis with
  | nil => rfl
  | cons li' lis => rfl

namespace Filling

/-- The bytes that begin at `e_li_p` once the given length indicators are written. -/
def liField (f : Filling) (lis : List ℕ) : Bytes :=
  if f.liLengthInBytes = 2 then f.pdu f.eLi :: encodeSecond (f.pdu (f.eLi + 1)) lis else encodeLis lis

/-- What the pass leaves of a frame in the memory. -/
structure Filled (testNumLi : ℕ) (f : Filling) (fr : Frame UInt8) (f' : Filling) : Prop where
  pduRemainingSize : f'.pduRemainingSize = 0
  fillNumLi : f'.fillNumLi = testNumLi
  fiLast : f'.fiLastBytePduIsLastByteSdu = fr.ends
  bufferOccupancy : f'.bufferOccupancy = f.bufferOccupancy - fr.payload.length
  payload : Stores f'.pdu f.data fr.payload
  lis : Stores f'.pdu f.eLi (f.liField (fr.complete.map List.length))
  below : ∀ p < f.eLi, f'.pdu p = f.pdu p
  between : ∀ p, f.eLi + (f.liField (fr.complete.map List.length)).length ≤ p → p < f.data →
    f'.pdu p = f.pdu p

variable {f f' : Filling} {fr : Frame UInt8} {sdu : TxSdu} {testNumLi : ℕ}

theorem liField_length (lis : List ℕ) :
    (f.liLengthInBytes = 1 → (f.liField lis).length = (lis.length * 3 + 1) / 2) ∧
    (f.liLengthInBytes = 2 → (f.liField lis).length = 2 + lis.length * 3 / 2) := by
  constructor
  · intro hli
    rw [liField, if_neg (by omega), encodeLis_length, lisSize_eq]
  · intro hli
    rw [liField, if_pos hli]
    cases lis with
    | nil => rfl
    | cons li lis =>
      rw [encodeSecond, List.length_cons, List.length_cons, List.length_cons, encodeLis_length,
        lisSize_eq, List.length_cons]
      omega

theorem take_rest (sdu : TxSdu) : sdu.rest.take sdu.sduRemainingSize = sdu.rest := by
  rw [← sdu.rest_length, List.take_length]

/-- What an SDU changes apart from the memory. -/
theorem addSdu_fields (f : Filling) (testNumLi : ℕ) (sdu : TxSdu) :
    (f.addSdu testNumLi sdu).data = f.data + sdu.rest.length ∧
    (f.addSdu testNumLi sdu).bufferOccupancy = f.bufferOccupancy - sdu.rest.length ∧
    (f.addSdu testNumLi sdu).liLengthInBytes = f.liLengthInBytes ^^^ 3 ∧
    (f.addSdu testNumLi sdu).fillNumLi = f.fillNumLi + 1 ∧
    (f.addSdu testNumLi sdu).pduRemainingSize =
      f.pduRemainingSize - (sdu.sduRemainingSize + (f.liLengthInBytes ^^^ 3)) := by
  rw [sdu.rest_length]
  simp only [addSdu, writeLi]
  split
  · exact ⟨rfl, rfl, rfl, rfl, rfl⟩
  · exact ⟨rfl, rfl, rfl, rfl, rfl⟩

theorem more_eq (hnum : f.fillNumLi + (fr.complete.length + 1) = testNumLi) :
    decide (f.fillNumLi + 1 ≠ testNumLi) = decide (fr.complete.map List.length ≠ []) := by
  apply decide_eq_decide.mpr
  rw [ne_eq, ne_eq, List.map_eq_nil_iff, ← List.length_eq_zero_iff]
  omega

/-- The SDU and the first length indicator of a triple are written. -/
theorem addSdu_one (sdu : TxSdu) (hli : f.liLengthInBytes = 1)
    (hnum : f.fillNumLi + (fr.complete.length + 1) = testNumLi) :
    (f.addSdu testNumLi sdu).eLi = f.eLi ∧
    (f.addSdu testNumLi sdu).pdu = store (store f.pdu f.data sdu.rest) f.eLi
      [eLiB1 (fr.complete.map List.length ≠ []) sdu.sduRemainingSize, eLiB2 sdu.sduRemainingSize] := by
  rw [← more_eq hnum]
  simp only [addSdu, writeLi, copy, hli, take_rest]
  exact ⟨rfl, rfl⟩

theorem addSdu_two (sdu : TxSdu) (hli : f.liLengthInBytes = 2)
    (hnum : f.fillNumLi + (fr.complete.length + 1) = testNumLi) (hfit : f.eLi + 1 < f.data) :
    (f.addSdu testNumLi sdu).eLi = f.eLi + 3 ∧
    (f.addSdu testNumLi sdu).pdu = store (store f.pdu f.data sdu.rest) (f.eLi + 1)
      [eLiB2' (f.pdu (f.eLi + 1)) (fr.complete.map List.length ≠ []) sdu.sduRemainingSize,
        eLiB3 sdu.sduRemainingSize] := by
  have hb2 : store f.pdu f.data sdu.rest (f.eLi + 1) = f.pdu (f.eLi + 1) :=
    store_outside (Or.inl hfit)
  rw [← more_eq hnum, ← hb2]
  simp only [addSdu, writeLi, copy, hli, take_rest]
  exact ⟨rfl, rfl⟩

theorem addSdu_liField_end (hli : f.liLengthInBytes = 1 ∨ f.liLengthInBytes = 2)
    (hnum : f.fillNumLi + (fr.complete.length + 1) = testNumLi)
    (hfit : f.eLi + (f.liField ((sdu.rest :: fr.complete).map List.length)).length ≤ f.data) :
    (f.addSdu testNumLi sdu).eLi +
        ((f.addSdu testNumLi sdu).liField (fr.complete.map List.length)).length =
      f.eLi + (f.liField ((sdu.rest :: fr.complete).map List.length)).length := by
  obtain ⟨-, -, hli', -, -⟩ := addSdu_fields f testNumLi sdu
  have hfield := f.liField_length ((sdu.rest :: fr.complete).map List.length)
  have hfield' := (f.addSdu testNumLi sdu).liField_length (fr.complete.map List.length)
  rw [List.length_map] at hfield hfield'
  rw [List.length_cons] at hfield
  rcases hli with hli | hli
  · obtain ⟨heLi, -⟩ := addSdu_one sdu hli hnum
    rw [hli] at hli'
    have hone := hfield.1 hli
    have htwo := hfield'.2 hli'
    omega
  · have htwo := hfield.2 hli
    obtain ⟨heLi, -⟩ := addSdu_two sdu hli hnum (by omega)
    rw [hli] at hli'
    have hone := hfield'.1 hli'
    omega

theorem addSdu_lis (hli : f.liLengthInBytes = 1 ∨ f.liLengthInBytes = 2)
    (hnum : f.fillNumLi + (fr.complete.length + 1) = testNumLi)
    (hfit : f.eLi + (f.liField ((sdu.rest :: fr.complete).map List.length)).length ≤ f.data)
    (hg : (f.addSdu testNumLi sdu).Filled testNumLi fr f') :
    Stores f'.pdu f.eLi (f.liField ((sdu.rest :: fr.complete).map List.length)) := by
  obtain ⟨-, -, hli', -, -⟩ := addSdu_fields f testNumLi sdu
  have hlis := hg.lis
  have hbelow := hg.below
  rcases hli with hli | hli
  · obtain ⟨heLi, hpdu⟩ := addSdu_one sdu hli hnum
    have hwritten : Stores (f.addSdu testNumLi sdu).pdu f.eLi
        [eLiB1 (fr.complete.map List.length ≠ []) sdu.sduRemainingSize, eLiB2 sdu.sduRemainingSize] := by
      rw [hpdu]
      exact stores_store
    have htwo : (f.addSdu testNumLi sdu).liLengthInBytes = 2 := by
      rw [hli', hli]
      rfl
    rw [liField, if_pos htwo, heLi, hwritten.1, hwritten.2.1] at hlis
    rw [liField, if_neg (by omega), List.map_cons, encodeLis_cons, sdu.rest_length]
    exact hlis
  · have hlen := (f.liField_length ((sdu.rest :: fr.complete).map List.length)).2 hli
    rw [List.length_map, List.length_cons] at hlen
    obtain ⟨heLi, hpdu⟩ := addSdu_two sdu hli hnum (by omega)
    have hwritten : Stores (f.addSdu testNumLi sdu).pdu (f.eLi + 1)
        [eLiB2' (f.pdu (f.eLi + 1)) (fr.complete.map List.length ≠ []) sdu.sduRemainingSize,
          eLiB3 sdu.sduRemainingSize] := by
      rw [hpdu]
      exact stores_store
    have hfirst : (f.addSdu testNumLi sdu).pdu f.eLi = f.pdu f.eLi := by
      rw [hpdu, store_outside (by omega), store_outside (by omega)]
    have hone : (f.addSdu testNumLi sdu).liLengthInBytes = 1 := by
      rw [hli', hli]
      rfl
    rw [liField, if_neg (by omega), heLi] at hlis
    rw [heLi] at hbelow
    rw [liField, if_pos hli, List.map_cons, sdu.rest_length]
    refine ⟨?_, ?_, ?_, hlis⟩
    · rw [hbelow f.eLi (by omega), hfirst]
    · rw [hbelow (f.eLi + 1) (by omega), hwritten.1]
    · rw [hbelow (f.eLi + 1 + 1) (by omega), hwritten.2.1]

/-- Apart from the SDU the memory is written between `e_li_p` and the end of the length
indicators. -/
theorem addSdu_outside (hli : f.liLengthInBytes = 1 ∨ f.liLengthInBytes = 2)
    (hnum : f.fillNumLi + (fr.complete.length + 1) = testNumLi)
    (hfit : f.eLi + (f.liField ((sdu.rest :: fr.complete).map List.length)).length ≤ f.data) {q : ℕ}
    (hq : q < f.eLi ∨ f.eLi + (f.liField ((sdu.rest :: fr.complete).map List.length)).length ≤ q) :
    (f.addSdu testNumLi sdu).pdu q = store f.pdu f.data sdu.rest q := by
  have hlen := f.liField_length ((sdu.rest :: fr.complete).map List.length)
  rw [List.length_map, List.length_cons] at hlen
  rcases hli with hli | hli
  · have hone := hlen.1 hli
    rw [(addSdu_one sdu hli hnum).2]
    apply store_outside
    rw [List.length_cons, List.length_singleton]
    omega
  · have htwo := hlen.2 hli
    rw [(addSdu_two sdu hli hnum (by omega)).2]
    apply store_outside
    rw [List.length_cons, List.length_singleton]
    omega

/-- An SDU with its length indicator is written before the rest of the frame. -/
theorem Filled.addSdu (hli : f.liLengthInBytes = 1 ∨ f.liLengthInBytes = 2)
    (hnum : f.fillNumLi + (fr.complete.length + 1) = testNumLi)
    (hfit : f.eLi + (f.liField ((sdu.rest :: fr.complete).map List.length)).length ≤ f.data)
    (hg : (f.addSdu testNumLi sdu).Filled testNumLi fr f') :
    f.Filled testNumLi ⟨sdu.rest :: fr.complete, fr.last, fr.ends⟩ f' := by
  obtain ⟨hdata, hoccupancy, -, -, -⟩ := addSdu_fields f testNumLi sdu
  have hend := addSdu_liField_end hli hnum hfit
  have heLi : f.eLi ≤ (f.addSdu testNumLi sdu).eLi := by
    rcases hli with hli | hli
    · exact (addSdu_one sdu hli hnum).1.ge
    · have hlen := (f.liField_length ((sdu.rest :: fr.complete).map List.length)).2 hli
      rw [(addSdu_two sdu hli hnum (by omega)).1]
      omega
  have hbetween := hg.between
  rw [hend, hdata] at hbetween
  have hrest : Stores f'.pdu f.data sdu.rest := by
    have hcopied : Stores (store f.pdu f.data sdu.rest) f.data sdu.rest := stores_store
    refine hcopied.congr fun q hq hq' ↦ ?_
    rw [hbetween q (hfit.trans hq) hq']
    exact addSdu_outside hli hnum hfit (Or.inr (hfit.trans hq))
  refine ⟨hg.pduRemainingSize, hg.fillNumLi, hg.fiLast, ?_, ?_, addSdu_lis hli hnum hfit hg, ?_, ?_⟩
  · have hlen : (Frame.payload ⟨sdu.rest :: fr.complete, fr.last, fr.ends⟩).length =
        sdu.rest.length + fr.payload.length := by
      rw [Frame.payload, Frame.payload, List.flatten_cons, List.append_assoc, List.length_append]
    rw [hg.bufferOccupancy, hoccupancy, hlen, Nat.sub_sub]
  · have hpayload := hg.payload
    rw [hdata] at hpayload
    rw [Frame.payload, List.flatten_cons, List.append_assoc]
    exact stores_append.mpr ⟨hrest, hpayload⟩
  · intro q hq
    rw [hg.below q (by omega), addSdu_outside hli hnum hfit (Or.inl hq), store_outside (by omega)]
  · intro q hq hq'
    rw [hbetween q hq (by omega), addSdu_outside hli hnum hfit (Or.inr hq), store_outside (by omega)]

theorem filled_copy {last : Bytes} (ends : Bool) (hlast : sdu.rest.take f.pduRemainingSize = last)
    (hlen : last.length = f.pduRemainingSize) (hnum : f.fillNumLi = testNumLi)
    (hfit : f.eLi + (f.liField []).length ≤ f.data) :
    f.Filled testNumLi ⟨[], last, ends⟩
      { f.copy sdu f.pduRemainingSize with
        pduRemainingSize := 0
        fiLastBytePduIsLastByteSdu := ends } where
  pduRemainingSize := rfl
  fillNumLi := hnum
  fiLast := rfl
  bufferOccupancy := by
    rw [Frame.payload, List.flatten_nil, List.nil_append, hlen]
    rfl
  payload := by
    rw [← hlast]
    exact stores_store
  lis := by
    have hfield : Stores f.pdu f.eLi (f.liField []) := by
      rw [liField]
      split
      · exact ⟨rfl, rfl, trivial⟩
      · trivial
    exact hfield.congr fun q _ hq ↦ store_outside (by omega)
  below := fun q hq ↦ store_outside (by omega)
  between := fun q _ hq ↦ store_outside (by omega)

/-- The pass fills the PDU with the SDUs that were found for its size. -/
theorem loop_filled {li room : ℕ} {sdus sdus' : List TxSdu} (h : Packs li room sdus fr sdus')
    (hli : f.liLengthInBytes = 1 ∨ f.liLengthInBytes = 2) (hfli : f.liLengthInBytes = li)
    (hroom : f.pduRemainingSize = room) (hnum : f.fillNumLi + fr.complete.length = testNumLi)
    (hfit : f.eLi + (f.liField (fr.complete.map List.length)).length ≤ f.data) :
    (loop testNumLi sdus f).2 = sdus' ∧ f.Filled testNumLi fr (loop testNumLi sdus f).1 := by
  induction h generalizing f with
  | part li room sdu sdus hpos h =>
    subst hroom
    rw [loop, dif_pos h]
    refine ⟨rfl, filled_copy false rfl ?_ hnum hfit⟩
    rw [List.length_take, sdu.rest_length]
    omega
  | whole li sdu sdus hpos =>
    rw [loop, dif_neg (by omega), if_pos hroom.symm]
    refine ⟨rfl, filled_copy true ?_ ?_ hnum hfit⟩
    · rw [hroom, take_rest]
    · rw [hroom, sdu.rest_length]
  | @more li room sdu sdus sdus' fr h ih =>
    have hroom' := h.room_pos
    have hxor := li_xor hli
    subst hfli
    rw [loop, dif_neg (by omega), if_neg (by omega), if_pos (by omega)]
    obtain ⟨hdata, -, hli', hnum', hroom''⟩ := addSdu_fields f testNumLi sdu
    have hnum : f.fillNumLi + (fr.complete.length + 1) = testNumLi := hnum
    have hend := addSdu_liField_end hli hnum hfit
    obtain ⟨hrest, hfilled⟩ := ih (f := f.addSdu testNumLi sdu) (by omega) hli' (by omega) (by omega)
      (by
        rw [hend, hdata]
        exact hfit.trans (Nat.le_add_right _ _))
    exact ⟨hrest, hfilled.addSdu hli hnum hfit⟩

end Filling

end EdgeSlice.Rlc
