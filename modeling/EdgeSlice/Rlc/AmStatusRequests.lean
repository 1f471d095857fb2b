import EdgeSlice.Budget
import EdgeSlice.Rlc.AmAcknowledgement
import EdgeSlice.Rlc.AmStatus

namespace EdgeSlice.Rlc

open Budget

/-- What a STATUS PDU has to have room for: an entry, or just any part of a PDU. -/
structure Request where
  sn : ℕ
  bits : ℕ
  nack : Option Nack

namespace Request

def pdu (sn : ℕ) : Request := ⟨sn, Nack.pduBits, some (.ofPdu sn)⟩

def part (sn : ℕ) (soStart soEnd : ℤ) : Request := ⟨sn, Nack.partBits, some (.ofPart sn soStart soEnd)⟩

def room (sn : ℕ) : Request := ⟨sn, Nack.partBits, none⟩

/-- The bits that an entry uses up. -/
def used (q : Request) : ℕ := if q.nack.isSome then q.bits else 0

theorem used_le (q : Request) : q.used ≤ q.bits := by
  rw [used]
  split_ifs
  · exact le_rfl
  · exact Nat.zero_le _

end Request

namespace StatusReport

variable {grant : ℕ} {q : Request} {qs xs ys : List Request} {r : StatusReport}

/-- A request that there is room for. -/
def meet (q : Request) (r : StatusReport) : Option StatusReport :=
  match q.nack with
  | some n => r.push n q.bits
  | none => some r

/-- Requests are met in order, up to the first one that there is no room for. -/
def fill (grant : ℕ) : List Request → StatusReport → Option StatusReport
  | [], r => some r
  | q :: qs, r =>
    if r.nbBitsTransmitted + q.bits ≤ grant then (r.meet q).bind (fill grant qs)
    else some { r with completed := some q.sn }

theorem meet_completed {t : StatusReport} (h : r.meet q = some t) : t.completed = r.completed := by
  rw [meet] at h
  split at h
  · rw [push] at h
    split_ifs at h
    cases h
    rfl
  · cases h
    rfl

theorem fill_append (hr : r.completed = none) :
    fill grant (xs ++ ys) r =
      (fill grant xs r).bind fun r ↦ if r.completed = none then fill grant ys r else some r := by
  induction xs generalizing r with
  | nil =>
    rw [List.nil_append, fill, Option.bind_some, if_pos hr]
  | cons q xs ih =>
    rw [List.cons_append, fill, fill]
    split_ifs with hfit
    · cases hmeet : r.meet q with
      | none => rfl
      | some t =>
        rw [Option.bind_some, Option.bind_some]
        exact ih ((meet_completed hmeet).trans hr)
    · rfl

/-- The entries of the requests that fit. -/
def entries (room : ℕ) (qs : List Request) : List Nack :=
  (fitting Request.bits Request.used room qs).filterMap Request.nack

/-- The report with the requests that fit. -/
def filled (grant : ℕ) (qs : List Request) (r : StatusReport) : StatusReport where
  nackList := r.nackList ++ entries (grant - r.nbBitsTransmitted) qs
  nbBitsTransmitted := r.nbBitsTransmitted +
    ((fitting Request.bits Request.used (grant - r.nbBitsTransmitted) qs).map Request.used).sum
  completed := (unmet Request.bits Request.used (grant - r.nbBitsTransmitted) qs).map Request.sn

theorem entries_cons_of_lt {room : ℕ} (h : room < q.bits) : entries room (q :: qs) = [] := by
  rw [entries, fitting_cons_of_lt h]
  rfl

theorem filled_nil (hr : r.completed = none) : filled grant [] r = r := by
  obtain ⟨nackList, bits, completed⟩ := r
  cases hr
  simp [filled, entries, fitting, unmet]

theorem filled_cons_of_lt (h : grant - r.nbBitsTransmitted < q.bits) :
    filled grant (q :: qs) r = { r with completed := some q.sn } := by
  simp [filled, entries_cons_of_lt h, fitting_cons_of_lt h, unmet_cons_of_lt h]

/-- A request that asks for room only. -/
theorem filled_cons_of_none (h : q.bits ≤ grant - r.nbBitsTransmitted) (hnack : q.nack = none) :
    filled grant (q :: qs) r = filled grant qs r := by
  have hused : q.used = 0 := by
    rw [Request.used, hnack]
    rfl
  simp [filled, entries, fitting_cons_of_le h, unmet_cons_of_le h, hused, hnack]

/-- A request for an entry. -/
theorem filled_cons_of_some {n : Nack} (h : q.bits ≤ grant - r.nbBitsTransmitted) (hnack : q.nack = some n) :
    filled grant (q :: qs) r =
      filled grant qs
        { r with nackList := r.nackList ++ [n], nbBitsTransmitted := r.nbBitsTransmitted + q.bits } := by
  have hused : q.used = q.bits := by
    rw [Request.used, hnack]
    rfl
  simp [filled, entries, fitting_cons_of_le h, unmet_cons_of_le h, hused, hnack, Nat.sub_sub, Nat.add_assoc]

theorem length_le_filled (grant : ℕ) (qs : List Request) (r : StatusReport) :
    r.nackList.length ≤ (filled grant qs r).nackList.length := by
  rw [filled, List.length_append]
  exact Nat.le_add_right _ _

/-- The requests that fit are met, unless they are more than `nack_list` has entries. -/
theorem fill_eq (hpos : ∀ q ∈ qs, 0 < q.bits) (hr : r.completed = none)
    (hlength : r.nackList.length ≤ rlcAmMaxNackInStatusPdu) :
    fill grant qs r =
      if (filled grant qs r).nackList.length ≤ rlcAmMaxNackInStatusPdu then some (filled grant qs r)
      else none := by
  induction qs generalizing r with
  | nil => rw [filled_nil hr, if_pos hlength, fill]
  | cons q qs ih =>
    obtain ⟨hq, hqs⟩ := List.forall_mem_cons.mp hpos
    rw [fill]
    by_cases hfit : r.nbBitsTransmitted + q.bits ≤ grant
    · have hroom : q.bits ≤ grant - r.nbBitsTransmitted := by omega
      rw [if_pos hfit, meet]
      cases hnack : q.nack with
      | none =>
        rw [filled_cons_of_none hroom hnack]
        exact ih hqs hr hlength
      | some n =>
        rw [filled_cons_of_some hroom hnack]
        simp only [push]
        by_cases hlast : r.nackList.length < rlcAmMaxNackInStatusPdu
        · rw [if_pos hlast, Option.bind_some]
          apply ih (r := ⟨r.nackList ++ [n], r.nbBitsTransmitted + q.bits, r.completed⟩) hqs hr
          rw [List.length_append]
          exact hlast
        · have hmore := length_le_filled grant qs
            { r with nackList := r.nackList ++ [n], nbBitsTransmitted := r.nbBitsTransmitted + q.bits }
          rw [List.length_append, List.length_singleton] at hmore
          rw [if_neg hlast, if_neg (by omega)]
          rfl
    · have hroom : grant - r.nbBitsTransmitted < q.bits := by omega
      rw [if_neg hfit, filled_cons_of_lt hroom, if_pos hlength]

end StatusReport

namespace AmReceiver

open StatusReport

/-- How far a sequence number is behind VR(R). -/
def offset (e : AmReceiver) (sn : ℕ) : ℕ := amDiffSn sn e.vrR

/-- The requests for the part of a PDU behind its first segment. The loop keeps `waited_so` when it
has found a hole. -/
def segmentRequests (sn : ℕ) : List AmRxPdu → Bool → ℤ → List Request
  | _, true, _ => []
  | [], false, waitedSo => [.part sn waitedSo rlcAmStatusPduSoEndAllBytes]
  | pdu :: pdus, false, waitedSo =>
    if waitedSo < pdu.pduInfo.so then
      .part sn waitedSo (pdu.pduInfo.so - 1) :: segmentRequests sn pdus pdu.pduInfo.lsf waitedSo
    else segmentRequests sn pdus pdu.pduInfo.lsf (waitedSo + pdu.pduInfo.payloadSize)

/-- The request for the part of a PDU before its first segment. -/
def leadingRequests (sn so : ℕ) : List Request := if so ≠ 0 then [.part sn 0 (so - 1)] else []

/-- The requests for a PDU, of which `pdus` have been received. -/
def pduRequests (sn : ℕ) : List AmRxPdu → List Request
  | [] => [.pdu sn]
  | pdu :: pdus =>
    if pdu.allSegmentsReceived then []
    else .room sn :: (leadingRequests sn pdu.pduInfo.so ++
      segmentRequests sn pdus pdu.pduInfo.lsf (pdu.pduInfo.so + pdu.pduInfo.payloadSize))

/-- The requests for `n` PDUs from the one `d` after VR(R) on. -/
def requests (vrR : ℕ) (pdus : List AmRxPdu) (d n : ℕ) : List Request :=
  (List.range' d n).flatMap fun k ↦
    pduRequests (snAt vrR k) (pdus.filter fun pdu ↦ pdu.pduInfo.sn = snAt vrR k)

variable {e : AmReceiver} {grant fuel d snCursor : ℕ} {r : StatusReport}

theorem offset_lt (e : AmReceiver) (sn : ℕ) : e.offset sn < 1024 := amDiffSn_lt _ _

/-- The loop over PDUs of which nothing has been received. -/
theorem nackPdus_eq (grant fuel : ℕ) (hvrR : e.vrR < 1024) (hcursor : snCursor < 1024)
    (hd : d ≤ min (e.offset snCursor) (e.offset e.vrMs))
    (hfuel : min (e.offset snCursor) (e.offset e.vrMs) - d < fuel) (hr : r.completed = none) :
    e.nackPdus grant snCursor fuel (snAt e.vrR d) r =
      (fill grant ((List.range' d (min (e.offset snCursor) (e.offset e.vrMs) - d)).map fun k ↦
        Request.pdu (snAt e.vrR k)) r).map fun r ↦
          (r, r.completed.getD (snAt e.vrR (min (e.offset snCursor) (e.offset e.vrMs)))) := by
  have hcursorSn : snAt e.vrR (e.offset snCursor) = snCursor := snAt_amDiffSn hvrR hcursor
  have hlt := e.offset_lt snCursor
  induction fuel generalizing d r with
  | zero => omega
  | succ fuel ih =>
    have hoffset : amDiffSn (snAt e.vrR d) e.vrR = d := amDiffSn_snAt hvrR (by omega)
    rw [nackPdus]
    rcases hd.lt_or_eq with hlt' | heq
    · obtain ⟨n, hn⟩ : ∃ n, min (e.offset snCursor) (e.offset e.vrMs) - d = n + 1 :=
        ⟨min (e.offset snCursor) (e.offset e.vrMs) - d - 1, by omega⟩
      have hmore : snAt e.vrR d ≠ snCursor ∧ amDiffSn (snAt e.vrR d) e.vrR < amDiffSn e.vrMs e.vrR := by
        refine ⟨?_, ?_⟩
        · rw [← hcursorSn]
          exact snAt_ne hvrR (by omega) hlt (by omega)
        · rw [hoffset]
          exact lt_of_lt_of_le hlt' (min_le_right _ _)
      rw [if_pos hmore, hn, List.range'_succ, List.map_cons, fill]
      by_cases hfit : r.nbBitsTransmitted + Nack.pduBits ≤ grant
      · rw [if_pos hfit, if_pos (show r.nbBitsTransmitted + (Request.pdu _).bits ≤ grant from hfit)]
        have hmeet : r.meet (.pdu (snAt e.vrR d)) = r.push (.ofPdu (snAt e.vrR d)) Nack.pduBits := rfl
        rw [hmeet]
        cases hpush : r.push (.ofPdu (snAt e.vrR d)) Nack.pduBits with
        | none => rfl
        | some t =>
          have ht : t.completed = none := (meet_completed (hmeet.trans hpush)).trans hr
          have hrest := ih (d := d + 1) (by omega) (by omega) ht
          rw [show min (e.offset snCursor) (e.offset e.vrMs) - (d + 1) = n by omega] at hrest
          rw [Option.bind_eq_bind, Option.bind_some, Option.bind_some, amNextSn_snAt]
          exact hrest
      · rw [if_neg hfit, if_neg (show ¬r.nbBitsTransmitted + (Request.pdu _).bits ≤ grant from hfit)]
        rfl
    · have hno : ¬(snAt e.vrR d ≠ snCursor ∧ amDiffSn (snAt e.vrR d) e.vrR < amDiffSn e.vrMs e.vrR) := by
        rintro ⟨hne, hbefore⟩
        rw [hoffset] at hbefore
        have hle : e.offset e.vrMs ≤ d ∨ e.offset snCursor ≤ d := by omega
        rcases hle with hle | hle
        · exact absurd hbefore (not_lt.mpr hle)
        · apply hne
          rw [← hcursorSn, show d = e.offset snCursor by omega]
      rw [if_neg hno, heq, Nat.sub_self, List.range'_zero, List.map_nil, fill, Option.map_some, hr]
      rfl

/-- Only the last segment of a PDU may have the LSF. -/
def LsfLast : Bool → List AmRxPdu → Prop
  | _, [] => True
  | lsf, pdu :: pdus => lsf = false ∧ LsfLast pdu.pduInfo.lsf pdus

/-- `x` is the report `y`, with the list `cursor` left if there is still room. -/
def Leaves (cursor : List AmRxPdu) (x : Option (StatusReport × List AmRxPdu)) (y : Option StatusReport) :
    Prop :=
  x.map Prod.fst = y ∧ ∀ t ∈ x, t.1.completed = none → t.2 = cursor

variable {pdus cursor : List AmRxPdu} {pdu : AmRxPdu} {lsf : Bool} {waitedSo : ℤ}

theorem Leaves.stopped (cursor left : List AmRxPdu) (r : StatusReport) (sn : ℕ) :
    Leaves cursor (some ({ r with completed := some sn }, left)) (some { r with completed := some sn }) := by
  refine ⟨rfl, fun t ht hcompleted ↦ ?_⟩
  cases ht
  cases hcompleted

/-- An entry that there is room for. -/
theorem Leaves.push {q : Request} {n : Nack} {qs : List Request}
    {x : StatusReport → Option (StatusReport × List AmRxPdu)} (hnack : q.nack = some n)
    (hfit : r.nbBitsTransmitted + q.bits ≤ grant) (hr : r.completed = none)
    (hrest : ∀ t, t.completed = none → Leaves cursor (x t) (fill grant qs t)) :
    Leaves cursor ((r.push n q.bits).bind x) (fill grant (q :: qs) r) := by
  rw [fill, if_pos hfit]
  have hmeet : r.meet q = r.push n q.bits := by
    rw [meet, hnack]
  rw [hmeet]
  cases hpush : r.push n q.bits with
  | none => exact ⟨rfl, fun t ht ↦ by cases ht⟩
  | some t => exact hrest t ((meet_completed (hmeet.trans hpush)).trans hr)

/-- The entry for the end of a PDU. -/
theorem Leaves.last {x : Option (StatusReport × List AmRxPdu)} (sn : ℕ) (hr : r.completed = none)
    (hx : x = if r.nbBitsTransmitted + Nack.partBits ≤ grant then
        (r.push (.ofPart sn waitedSo rlcAmStatusPduSoEndAllBytes) Nack.partBits).bind fun r ↦ some (r, cursor)
      else some ({ r with completed := some sn }, cursor)) :
    Leaves cursor x (fill grant [.part sn waitedSo rlcAmStatusPduSoEndAllBytes] r) := by
  rw [hx]
  by_cases hfit : r.nbBitsTransmitted + Nack.partBits ≤ grant
  · rw [if_pos hfit]
    exact Leaves.push (q := .part sn waitedSo rlcAmStatusPduSoEndAllBytes) rfl hfit hr fun t ht ↦
      ⟨rfl, fun u hu _ ↦ by cases hu; rfl⟩
  · rw [if_neg hfit, fill, if_neg (show ¬r.nbBitsTransmitted + (Request.part sn _ _).bits ≤ grant from hfit)]
    exact Leaves.stopped cursor cursor r sn

/-- The loop over the further segments of a PDU. -/
theorem nackSegments_leaves (hpdus : ∀ pdu ∈ pdus, pdu.pduInfo.sn = snCursor)
    (hcursor : ∀ pdu ∈ cursor.head?, pdu.pduInfo.sn ≠ snCursor) (hlast : LsfLast lsf pdus)
    (hr : r.completed = none) :
    Leaves cursor (nackSegments grant snCursor (pdus ++ cursor) lsf waitedSo r)
      (fill grant (segmentRequests snCursor pdus lsf waitedSo) r) := by
  induction pdus generalizing lsf waitedSo r with
  | nil =>
    rw [List.nil_append]
    cases lsf with
    | true =>
      rw [nackSegments.eq_def, segmentRequests.eq_def]
      exact ⟨rfl, fun t ht _ ↦ by cases ht; rfl⟩
    | false =>
      rw [segmentRequests.eq_def]
      cases cursor with
      | nil =>
        rw [nackSegments]
        exact Leaves.last snCursor hr rfl
      | cons pdu cursor =>
        rw [nackSegments, if_neg (hcursor pdu rfl)]
        exact Leaves.last snCursor hr rfl
  | cons pdu pdus ih =>
    obtain ⟨rfl, hlast⟩ := hlast
    obtain ⟨hpdu, hpdus⟩ := List.forall_mem_cons.mp hpdus
    rw [List.cons_append, nackSegments, segmentRequests, if_pos hpdu]
    by_cases hhole : waitedSo < pdu.pduInfo.so
    · rw [if_pos hhole, if_pos hhole]
      by_cases hfit : r.nbBitsTransmitted + Nack.partBits ≤ grant
      · rw [if_pos hfit]
        exact Leaves.push (q := .part snCursor waitedSo (pdu.pduInfo.so - 1)) rfl hfit hr fun t ht ↦
          ih hpdus hlast ht
      · rw [if_neg hfit, fill,
          if_neg (show ¬r.nbBitsTransmitted + (Request.part snCursor _ _).bits ≤ grant from hfit)]
        exact Leaves.stopped _ _ r snCursor
    · rw [if_neg hhole, if_neg hhole]
      exact ih hpdus hlast hr

/-- A PDU that has been received in part. -/
theorem nackParts_leaves (grant : ℕ) (hpdus : ∀ p ∈ pdus, p.pduInfo.sn = pdu.pduInfo.sn)
    (hcursor : ∀ p ∈ cursor.head?, p.pduInfo.sn ≠ pdu.pduInfo.sn) (hlast : LsfLast pdu.pduInfo.lsf pdus)
    (hall : pdu.allSegmentsReceived = false) (hr : r.completed = none) :
    Leaves cursor (nackParts grant pdu.pduInfo.sn pdu (pdus ++ cursor) r)
      (fill grant (pduRequests pdu.pduInfo.sn (pdu :: pdus)) r) := by
  rw [nackParts, pduRequests, hall, if_neg Bool.false_ne_true, fill]
  by_cases hfit : r.nbBitsTransmitted + Nack.partBits ≤ grant
  · have hroom : r.nbBitsTransmitted + (Request.room pdu.pduInfo.sn).bits ≤ grant := hfit
    have hmeet : r.meet (.room pdu.pduInfo.sn) = some r := rfl
    rw [if_pos hfit, if_pos hroom, hmeet, Option.bind_some, leadingRequests]
    by_cases hso : pdu.pduInfo.so = 0
    · rw [if_neg (not_not_intro hso), if_neg (not_not_intro hso), List.nil_append, hso, Nat.cast_zero, zero_add]
      exact nackSegments_leaves hpdus hcursor hlast hr
    · rw [if_pos hso, if_pos hso, List.singleton_append]
      exact Leaves.push (q := .part pdu.pduInfo.sn 0 (pdu.pduInfo.so - 1)) rfl hfit hr fun t ht ↦
        nackSegments_leaves hpdus hcursor hlast ht
  · have hroom : ¬r.nbBitsTransmitted + (Request.room pdu.pduInfo.sn).bits ≤ grant := hfit
    rw [if_neg hfit, if_neg hroom]
    exact Leaves.stopped _ _ r pdu.pduInfo.sn

end AmReceiver

end EdgeSlice.Rlc
