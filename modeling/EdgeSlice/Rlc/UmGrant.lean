import EdgeSlice.Rlc.UmPdu
import Mathlib.Algebra.Order.Group.Nat

namespace EdgeSlice.Rlc

open Segmentation

/-- What is left of the first SDUs of a queue. -/
def sizeTo (k : ℕ) (sdus : List TxSdu) : ℕ := ((sdus.take k).map (·.sduRemainingSize)).sum

variable {sdu : TxSdu} {sdus sdus' : List TxSdu} {f : Frame UInt8} {li room k j : ℕ}

theorem sizeTo_cons (k : ℕ) (sdu : TxSdu) (sdus : List TxSdu) :
    sizeTo (k + 1) (sdu :: sdus) = sdu.sduRemainingSize + sizeTo k sdus := by
  rw [sizeTo, List.take_succ_cons, List.map_cons, List.sum_cons]
  rfl

theorem sizeTo_length (sdus : List TxSdu) :
    sizeTo sdus.length sdus = (sdus.map (·.sduRemainingSize)).sum := by
  rw [sizeTo, List.take_length]

theorem sizeTo_mono (sdus : List TxSdu) (h : j ≤ k) : sizeTo j sdus ≤ sizeTo k sdus :=
  ((List.take_sublist_take_left h).map _).sum_le_sum fun _ _ ↦ Nat.zero_le _

theorem sizeTo_lt (hpos : ∀ sdu ∈ sdus, 0 < sdu.sduRemainingSize) (h : k < sdus.length) :
    sizeTo k sdus < sizeTo (k + 1) sdus := by
  induction sdus generalizing k with
  | nil => exact absurd h (Nat.not_lt_zero k)
  | cons sdu sdus ih =>
    obtain ⟨hsdu, hsdus⟩ := List.forall_mem_cons.mp hpos
    cases k with
    | zero =>
      rw [sizeTo_cons]
      exact Nat.add_pos_left hsdu _
    | succ k =>
      rw [sizeTo_cons, sizeTo_cons]
      exact Nat.add_lt_add_left (ih hsdus (Nat.lt_of_succ_lt_succ h)) _

theorem lisSize_mono (h : j ≤ k) : lisSize j ≤ lisSize k := by
  rw [lisSize_eq, lisSize_eq]
  omega

namespace Packs

/-- The frame ends in the SDU behind those that end with a length indicator. -/
theorem sizeTo_payload (h : Packs li room sdus f sdus') :
    f.complete.length < sdus.length ∧ sizeTo f.complete.length sdus < f.payload.length ∧
      f.payload.length ≤ sizeTo (f.complete.length + 1) sdus ∧
      (f.ends = true → f.payload.length = sizeTo (f.complete.length + 1) sdus) := by
  induction h with
  | part li room sdu sdus hpos h =>
    have hpayload : (Frame.payload ⟨[], sdu.rest.take room, false⟩).length = room := by
      rw [Frame.payload, List.flatten_nil, List.nil_append, List.length_take, sdu.rest_length]
      exact Nat.min_eq_left (Nat.le_of_lt h)
    rw [hpayload, List.length_nil, sizeTo_cons]
    exact ⟨Nat.zero_lt_succ _, hpos, (Nat.le_of_lt h).trans (Nat.le_add_right _ _), Bool.noConfusion⟩
  | whole li sdu sdus hpos =>
    have hpayload : (Frame.payload ⟨[], sdu.rest, true⟩).length = sdu.sduRemainingSize := sdu.rest_length
    rw [hpayload, List.length_nil, sizeTo_cons]
    exact ⟨Nat.zero_lt_succ _, hpos, Nat.le_add_right _ _, fun _ ↦ rfl⟩
  | more sdu h ih =>
    obtain ⟨hlt, hbelow, habove, hends⟩ := ih
    rw [payload_cons, List.length_cons, List.length_cons, sizeTo_cons, sizeTo_cons]
    exact ⟨Nat.succ_lt_succ hlt, Nat.add_lt_add_left hbelow _, Nat.add_le_add_left habove _,
      fun h ↦ congrArg (sdu.sduRemainingSize + ·) (hends h)⟩

/-- The SDUs that end with a length indicator are the first ones of the queue. -/
theorem complete_eq (h : Packs li room sdus f sdus') :
    f.complete = (sdus.take f.complete.length).map (·.rest) := by
  induction h with
  | part li room sdu sdus hpos h => rfl
  | whole li sdu sdus hpos => rfl
  | more sdu h ih => exact congrArg (sdu.rest :: ·) ih

theorem complete_sizes (h : Packs li room sdus f sdus') :
    f.complete.map List.length = (sdus.take f.complete.length).map (·.sduRemainingSize) := by
  have heq := congrArg (List.map List.length) h.complete_eq
  rw [List.map_map] at heq
  refine heq.trans (List.map_congr_left fun sdu _ ↦ ?_)
  exact sdu.rest_length

end Packs

namespace UmEntity

variable {s : UmEntity} {reduced : ℕ}

/-- The grant has a place for the first `k + 1` SDUs of the queue and `k` length indicators, and
what is left of it is too small for another length indicator with data behind it. -/
def LeavesBytes (s : UmEntity) (k : ℕ) : Prop :=
  k + 1 < s.inputSdus.length ∧
    1 + lisSize k + sizeTo (k + 1) s.inputSdus < s.nbBytesRequestedByMac ∧
    s.nbBytesRequestedByMac ≤ 1 + lisSize (k + 1) + sizeTo (k + 1) s.inputSdus

/-- The grant has a place for the first `k + 1` SDUs of the queue, their length indicators and a
byte of the next SDU. -/
def EndsWithLi (s : UmEntity) (k : ℕ) : Prop :=
  k + 1 < s.inputSdus.length ∧
    1 + lisSize (k + 1) + sizeTo (k + 1) s.inputSdus < s.nbBytesRequestedByMac

theorem Consistent.dataPduSize_eq (h : s.Consistent) :
    s.dataPduSize = min s.nbBytesRequestedByMac
      (1 + lisSize (s.inputSdus.length - 1) + sizeTo s.inputSdus.length s.inputSdus) := by
  have hall : s.bufferOccupancy + s.txHeaderMinLengthInBytes + maxLiOverhead s.inputSdus.length =
      1 + lisSize (s.inputSdus.length - 1) + sizeTo s.inputSdus.length s.inputSdus := by
    rw [h.bufferOccupancy, h.txHeaderMinLengthInBytes, maxLiOverhead_eq, (liBytes_eq _).1, lisSize_eq,
      sizeTo_length]
    omega
  rw [UmEntity.dataPduSize, hall]
  split_ifs with hge
  · exact (Nat.min_eq_right hge).symm
  · exact (Nat.min_eq_left (by omega)).symm

theorem Consistent.sizeTo_lt_all (h : s.Consistent) (hk : k + 1 < s.inputSdus.length) :
    1 + lisSize (k + 1) + sizeTo (k + 1) s.inputSdus <
      1 + lisSize (s.inputSdus.length - 1) + sizeTo s.inputSdus.length s.inputSdus := by
  have hlis : lisSize (k + 1) ≤ lisSize (s.inputSdus.length - 1) := lisSize_mono (by omega)
  have hnext := sizeTo_lt h.remaining_pos hk
  have hall : sizeTo (k + 1 + 1) s.inputSdus ≤ sizeTo s.inputSdus.length s.inputSdus :=
    sizeTo_mono _ hk
  omega

namespace Found

/-- The PDU is made smaller exactly where the grant leaves bytes, behind the last SDU of the PDU. -/
theorem leavesBytes_iff (hs : s.Consistent) (h : s.Found reduced f sdus') :
    s.LeavesBytes k ↔ 0 < reduced ∧ k = f.complete.length := by
  obtain ⟨hlength, hbelow, habove, hends⟩ := h.packs.sizeTo_payload
  have hsize := h.dataPduSize
  have hbound := h.bound
  rw [(liBytes_eq _).1, ← lisSize_eq] at hbound
  rw [hs.dataPduSize_eq] at hsize hbound
  constructor
  · rintro ⟨hk, hplace, hleft⟩
    have hall := hs.sizeTo_lt_all hk
    rcases Nat.lt_trichotomy k f.complete.length with hlt | rfl | hgt
    · have hlis : lisSize (k + 1) ≤ lisSize f.complete.length := lisSize_mono hlt
      have hsizes : sizeTo (k + 1) s.inputSdus ≤ sizeTo f.complete.length s.inputSdus :=
        sizeTo_mono _ hlt
      omega
    · exact ⟨by omega, rfl⟩
    · have hlis : lisSize (f.complete.length + 1) ≤ lisSize k := lisSize_mono hgt
      have hsizes : sizeTo (f.complete.length + 1) s.inputSdus ≤ sizeTo (k + 1) s.inputSdus :=
        sizeTo_mono _ (by omega)
      omega
  · rintro ⟨hreduced, rfl⟩
    have hpayload := hends (h.ends hreduced)
    have hnext : f.complete.length + 1 < s.inputSdus.length := by
      by_contra hlast
      have heq : s.inputSdus.length = f.complete.length + 1 := by omega
      rw [heq, Nat.add_sub_cancel] at hsize
      omega
    have hall := hs.sizeTo_lt_all hnext
    exact ⟨hnext, by omega, by omega⟩

theorem endsWithLi_iff (hs : s.Consistent) (h : s.Found reduced f sdus') :
    s.EndsWithLi k ↔ k < f.complete.length := by
  obtain ⟨hlength, hbelow, habove, -⟩ := h.packs.sizeTo_payload
  have hsize := h.dataPduSize
  have hbound := h.bound
  rw [(liBytes_eq _).1, ← lisSize_eq] at hbound
  rw [hs.dataPduSize_eq] at hsize hbound
  constructor
  · rintro ⟨hk, hplace⟩
    by_contra hge
    have hall := hs.sizeTo_lt_all hk
    have hlis : lisSize (f.complete.length + 1) ≤ lisSize (k + 1) := lisSize_mono (by omega)
    have hsizes : sizeTo (f.complete.length + 1) s.inputSdus ≤ sizeTo (k + 1) s.inputSdus :=
      sizeTo_mono _ (by omega)
    omega
  · intro hk
    have hlis : lisSize (k + 1) ≤ lisSize f.complete.length := lisSize_mono hk
    have hsizes : sizeTo (k + 1) s.inputSdus ≤ sizeTo f.complete.length s.inputSdus :=
      sizeTo_mono _ hk
    exact ⟨by omega, by omega⟩

end Found

end UmEntity

end EdgeSlice.Rlc
