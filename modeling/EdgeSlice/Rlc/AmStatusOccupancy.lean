import EdgeSlice.Rlc.AmStatusFitting

namespace EdgeSlice.Rlc.AmReceiver

open StatusReport

/-- The loop over the PDUs from `sn_prev` to `sn_cursor`; `none` if it does not end. -/
def countHoles (snCursor : ℕ) (e : AmReceiver) : ℕ → ℕ → ℕ → Option ℕ
  | 0, _, _ => none
  | fuel + 1, snPrev, nbBits =>
    if snPrev ≠ snCursor ∧ snPrev ≠ e.vrMs then
      e.countHoles snCursor fuel (amNextSn snPrev) (nbBits + Nack.pduBits)
    else some nbBits

/-- The loop over the further segments of `sn_cursor`, with the list that is left. -/
def countGaps (snCursor : ℕ) : List AmRxPdu → Bool → ℤ → ℕ → ℕ × List AmRxPdu
  | cursor, true, _, nbBits => (nbBits, cursor)
  | [], false, _, nbBits => (nbBits + Nack.partBits, [])
  | pdu :: cursor, false, waitedSo, nbBits =>
    if pdu.pduInfo.sn = snCursor then
      if waitedSo < pdu.pduInfo.so then
        countGaps snCursor cursor pdu.pduInfo.lsf waitedSo (nbBits + Nack.partBits)
      else countGaps snCursor cursor pdu.pduInfo.lsf (waitedSo + pdu.pduInfo.payloadSize) nbBits
    else (nbBits + Nack.partBits, pdu :: cursor)

/-- A PDU that has been received in part, from its first segment on. -/
def countParts (pdu : AmRxPdu) (cursor : List AmRxPdu) (nbBits : ℕ) : ℕ × List AmRxPdu :=
  if pdu.pduInfo.so ≠ 0 then
    countGaps pdu.pduInfo.sn cursor pdu.pduInfo.lsf (pdu.pduInfo.so + pdu.pduInfo.payloadSize)
      (nbBits + Nack.partBits)
  else countGaps pdu.pduInfo.sn cursor pdu.pduInfo.lsf pdu.pduInfo.payloadSize nbBits

/-- The main loop; `none` if a loop does not end. -/
def countLoop (e : AmReceiver) : ℕ → List AmRxPdu → ℕ → ℕ → Option ℕ
  | 0, _, _, _ => none
  | _ + 1, [], _, nbBits => some nbBits
  | fuel + 1, pdu :: cursor, snPrev, nbBits =>
    if amDiffSn snPrev e.vrR < amDiffSn e.vrMs e.vrR then do
      let snCursor := pdu.pduInfo.sn
      let nbBits ← e.countHoles snCursor 1025 snPrev nbBits
      let (nbBits, cursor) :=
        if ¬pdu.allSegmentsReceived ∧ amDiffSn snCursor e.vrR < amDiffSn e.vrMs e.vrR then
          countParts pdu cursor nbBits
        else (nbBits, cursor.dropWhile fun pdu ↦ pdu.pduInfo.sn = snCursor)
      e.countLoop fuel cursor (amNextSn snCursor) nbBits
    else some nbBits

/-- `rlc_am_get_status_pdu_buffer_occupancy`; `none` if a loop does not end. -/
def getStatusPduBufferOccupancy (e : AmReceiver) : Option ℕ := do
  let nbBits ←
    if e.vrR ≠ e.vrMs then
      e.countLoop (e.receiverBuffer.length + 1) e.receiverBuffer e.vrR statusHeaderBits
    else some statusHeaderBits
  some ((nbBits + 7) >>> 3)

variable {e : AmReceiver} {len : ℕ → ℕ} {fuel d n snCursor nbBits : ℕ} {lsf : Bool} {waitedSo : ℤ}
  {pdu : AmRxPdu} {pdus next cursor : List AmRxPdu}

/-- The bits of the entries of a list of requests. -/
def entryBits (qs : List Request) : ℕ := (qs.map Request.used).sum

@[simp] theorem entryBits_nil : entryBits [] = 0 := rfl

@[simp] theorem entryBits_cons (q : Request) (qs : List Request) :
    entryBits (q :: qs) = q.used + entryBits qs := List.sum_cons

@[simp] theorem entryBits_append (ps qs : List Request) :
    entryBits (ps ++ qs) = entryBits ps + entryBits qs := by
  simp [entryBits]

@[simp] theorem used_pdu (sn : ℕ) : (Request.pdu sn).used = Nack.pduBits := rfl

@[simp] theorem used_part (sn : ℕ) (soStart soEnd : ℤ) : (Request.part sn soStart soEnd).used = Nack.partBits := rfl

@[simp] theorem used_room (sn : ℕ) : (Request.room sn).used = 0 := rfl

theorem entryBits_pdus (vrR d n : ℕ) :
    entryBits ((List.range' d n).map fun k ↦ Request.pdu (snAt vrR k)) = n * Nack.pduBits := by
  induction n generalizing d with
  | zero => simp
  | succ n ih =>
    rw [List.range'_succ, List.map_cons, entryBits_cons, ih, used_pdu, Nat.succ_mul, Nat.add_comm]

/-- The bits for PDUs of which nothing has been received. -/
theorem countHoles_eq (hvrR : e.vrR < 1024) (hvrMs : e.vrMs < 1024) (hcursor : snCursor < 1024)
    (hn : d + n = min (e.offset snCursor) (e.offset e.vrMs)) (hfuel : n < fuel) :
    e.countHoles snCursor fuel (snAt e.vrR d) nbBits = some (nbBits + n * Nack.pduBits) := by
  have hcursorSn : snAt e.vrR (e.offset snCursor) = snCursor := snAt_amDiffSn hvrR hcursor
  have hMsSn : snAt e.vrR (e.offset e.vrMs) = e.vrMs := snAt_amDiffSn hvrR hvrMs
  have hlt := e.offset_lt snCursor
  have hltMs := e.offset_lt e.vrMs
  induction fuel generalizing d n nbBits with
  | zero => omega
  | succ fuel ih =>
    rw [countHoles]
    cases n with
    | zero =>
      rw [if_neg]
      · simp
      · rintro ⟨hne, hneMs⟩
        rcases min_choice (e.offset snCursor) (e.offset e.vrMs) with hmin | hmin
        · apply hne
          rw [show d = e.offset snCursor by omega, hcursorSn]
        · apply hneMs
          rw [show d = e.offset e.vrMs by omega, hMsSn]
    | succ n =>
      have hne : snAt e.vrR d ≠ snCursor := by
        rw [← hcursorSn]
        exact snAt_ne hvrR (by omega) hlt (by omega)
      have hneMs : snAt e.vrR d ≠ e.vrMs := by
        rw [← hMsSn]
        exact snAt_ne hvrR (by omega) hltMs (by omega)
      have hrest : d + 1 + n = min (e.offset snCursor) (e.offset e.vrMs) := by omega
      rw [if_pos ⟨hne, hneMs⟩, amNextSn_snAt, ih hrest (by omega), Nat.succ_mul, Nat.add_assoc,
        Nat.add_comm Nack.pduBits]

/-- The bits for the gaps behind the first segment of a PDU. -/
theorem countGaps_eq (hpdus : ∀ p ∈ pdus, p.pduInfo.sn = snCursor)
    (hcursor : ∀ p ∈ cursor.head?, p.pduInfo.sn ≠ snCursor) (hlast : LsfLast lsf pdus) :
    countGaps snCursor (pdus ++ cursor) lsf waitedSo nbBits =
      (nbBits + entryBits (segmentRequests snCursor pdus lsf waitedSo), cursor) := by
  induction pdus generalizing lsf waitedSo nbBits with
  | nil =>
    rw [List.nil_append]
    cases lsf with
    | true => simp [countGaps.eq_def, segmentRequests.eq_def]
    | false =>
      cases cursor with
      | nil => simp [countGaps, segmentRequests]
      | cons p cursor => simp [countGaps, segmentRequests, hcursor p rfl]
  | cons p pdus ih =>
    obtain ⟨rfl, hlast⟩ := hlast
    obtain ⟨hp, hpdus⟩ := List.forall_mem_cons.mp hpdus
    rw [List.cons_append, countGaps, segmentRequests, if_pos hp]
    split_ifs with hhole
    · rw [ih hpdus hlast, entryBits_cons, used_part, Nat.add_assoc]
    · exact ih hpdus hlast

/-- The bits for a PDU that has been received in part. -/
theorem countParts_eq (nbBits : ℕ) (hpdus : ∀ p ∈ pdus, p.pduInfo.sn = pdu.pduInfo.sn)
    (hcursor : ∀ p ∈ cursor.head?, p.pduInfo.sn ≠ pdu.pduInfo.sn) (hlast : LsfLast pdu.pduInfo.lsf pdus)
    (hall : pdu.allSegmentsReceived = false) :
    countParts pdu (pdus ++ cursor) nbBits =
      (nbBits + entryBits (pduRequests pdu.pduInfo.sn (pdu :: pdus)), cursor) := by
  rw [countParts, pduRequests, hall, if_neg Bool.false_ne_true, leadingRequests]
  split_ifs with hso
  · rw [countGaps_eq hpdus hcursor hlast]
    simp [Nat.add_assoc]
  · rw [countGaps_eq hpdus hcursor hlast]
    simp [not_not.mp hso]

theorem countParts_first (hlist : e.Listed len (pdu :: next)) (hall : pdu.allSegmentsReceived = false) :
    countParts pdu next nbBits =
      (nbBits + entryBits (pduRequests pdu.pduInfo.sn (pdu :: sameSn pdu next)), otherSn pdu next) := by
  have hparts := countParts_eq nbBits (fun p hp ↦ sn_of_mem_sameSn hp)
    (fun p (hp : p ∈ (otherSn pdu next).head?) ↦ sn_ne_of_head_otherSn hp) (hlist.lsfLast_sameSn hall) hall
  rwa [sameSn_append_otherSn] at hparts

/-- The main loop ends behind VR(MS). -/
theorem countLoop_of_le (hvrR : e.vrR < 1024) (hlist : e.Listed len (pdu :: next)) (hle : e.offset e.vrMs ≤ e.offset pdu.pduInfo.sn) :
    e.countLoop (fuel + 1) (otherSn pdu next) (amNextSn pdu.pduInfo.sn) nbBits = some nbBits := by
  cases hother : otherSn pdu next with
  | nil => rw [countLoop]
  | cons p rest =>
    have hlt : e.offset pdu.pduInfo.sn < e.offset p.pduInfo.sn :=
      hlist.offset_lt_of_mem_otherSn (by simp [hother])
    have hbound := e.offset_lt p.pduInfo.sn
    have hnext : amNextSn pdu.pduInfo.sn = snAt e.vrR (e.offset pdu.pduInfo.sn + 1) := by
      rw [← amNextSn_snAt, offset, snAt_amDiffSn hvrR (hlist.stored pdu List.mem_cons_self).sn_lt]
    rw [countLoop, if_neg]
    rw [hnext, amDiffSn_snAt hvrR (by omega)]
    exact Nat.not_lt.mpr (hle.trans (Nat.le_succ _))

/-- The main loop counts the bits of the entries that are requested. -/
theorem countLoop_eq (nbBits : ℕ) (hvrR : e.vrR < 1024) (hvrMs : e.vrMs < 1024) (hlist : e.Listed len pdus)
    (hd : ∀ p ∈ pdus, d ≤ e.offset p.pduInfo.sn) (hdMs : d ≤ e.offset e.vrMs) (hfuel : pdus.length < fuel) :
    e.countLoop fuel pdus (snAt e.vrR d) nbBits =
      some (nbBits + entryBits (requests e.vrR pdus d (e.reach d pdus - d))) := by
  have hMs := e.offset_lt e.vrMs
  induction fuel generalizing pdus d nbBits with
  | zero => omega
  | succ fuel ih =>
    cases pdus with
    | nil =>
      rw [countLoop, show e.reach d [] = d from rfl, Nat.sub_self]
      rfl
    | cons pdu next =>
      have hfirst := hd pdu List.mem_cons_self
      have hstored := hlist.stored pdu List.mem_cons_self
      have hdSn : amDiffSn (snAt e.vrR d) e.vrR = d := amDiffSn_snAt hvrR (by omega)
      rw [countLoop, hdSn]
      rcases hdMs.eq_or_lt with rfl | hltMs
      · rw [if_neg (show ¬e.offset e.vrMs < amDiffSn e.vrMs e.vrR from lt_irrefl _), reach_of_le hlist hfirst, Nat.sub_self]
        rfl
      have hholes : e.countHoles pdu.pduInfo.sn 1025 (snAt e.vrR d) nbBits = _ :=
        countHoles_eq hvrR hvrMs hstored.sn_lt (Nat.add_sub_cancel' (le_min hfirst hdMs)) (by omega)
      have hlength : (otherSn pdu next).length ≤ next.length := (List.dropWhile_sublist _).length_le
      rw [List.length_cons] at hfuel
      rw [if_pos (show d < amDiffSn e.vrMs e.vrR from hltMs)]
      simp only [Option.bind_eq_bind, hholes, Option.bind_some]
      rcases Nat.lt_or_ge (e.offset pdu.pduInfo.sn) (e.offset e.vrMs) with hlt | hle
      · have hsn : snAt e.vrR (e.offset pdu.pduInfo.sn) = pdu.pduInfo.sn := snAt_amDiffSn hvrR hstored.sn_lt
        have hnext : amNextSn pdu.pduInfo.sn = snAt e.vrR (e.offset pdu.pduInfo.sn + 1) := by
          rw [← amNextSn_snAt, hsn]
        have hother (p : AmRxPdu) (hp : p ∈ otherSn pdu next) : e.offset pdu.pduInfo.sn + 1 ≤ e.offset p.pduInfo.sn :=
          hlist.offset_lt_of_mem_otherSn hp
        rw [requests_reach_cons hvrR hlist hfirst hlt, entryBits_append, entryBits_append, entryBits_pdus,
          min_eq_left hlt.le, hnext]
        have hrest (nbBits : ℕ) := @ih _ (otherSn pdu next) nbBits (hlist.tail.sublist (List.dropWhile_sublist _))
          hother hlt (by omega)
        cases hall : pdu.allSegmentsReceived with
        | true =>
          have hnil : pduRequests pdu.pduInfo.sn (pdu :: sameSn pdu next) = [] := by
            simp [pduRequests, hall]
          rw [if_neg (by simp), hnil, entryBits_nil, Nat.zero_add, ← Nat.add_assoc]
          exact hrest _
        | false =>
          rw [if_pos ⟨Bool.false_ne_true, hlt⟩, countParts_first hlist hall, ← Nat.add_assoc, ← Nat.add_assoc]
          exact hrest _
      · rw [if_neg fun h ↦ absurd h.2 (Nat.not_lt.mpr hle), requests_reach_of_le hvrR hlist hdMs hle, entryBits_pdus,
          min_eq_right hle]
        obtain ⟨fuel, rfl⟩ : ∃ k, fuel = k + 1 := ⟨fuel - 1, by omega⟩
        exact countLoop_of_le hvrR hlist hle

end EdgeSlice.Rlc.AmReceiver
