import EdgeSlice.Rlc.AmStatusRequests
import Mathlib.Data.List.TakeWhile

namespace EdgeSlice.Rlc

/-- A PDU, or a segment of one, of `len sn` bytes. -/
structure AmRxPdu.Stored (len : ℕ → ℕ) (p : AmRxPdu) : Prop where
  sn_lt : p.pduInfo.sn < 1024
  payloadSize_pos : 0 < p.pduInfo.payloadSize
  end_le : p.pduInfo.so + p.pduInfo.payloadSize ≤ len p.pduInfo.sn
  whole : p.pduInfo.rf = false → p.allSegmentsReceived ∧ p.pduInfo.so = 0 ∧
    p.pduInfo.payloadSize = len p.pduInfo.sn
  lsf_iff : p.pduInfo.rf → (p.pduInfo.lsf ↔ p.pduInfo.so + p.pduInfo.payloadSize = len p.pduInfo.sn)

namespace AmReceiver

open StatusReport

variable {e : AmReceiver} {len : ℕ → ℕ} {grant fuel d : ℕ} {r t : StatusReport} {pdu p q : AmRxPdu}
  {pdus next cursor : List AmRxPdu} {all : Bool}

/-- The order of the receive list. -/
def Before (e : AmReceiver) (p q : AmRxPdu) : Prop :=
  e.offset p.pduInfo.sn < e.offset q.pduInfo.sn ∨
    p.pduInfo.sn = q.pduInfo.sn ∧ p.pduInfo.so + p.pduInfo.payloadSize ≤ q.pduInfo.so

/-- A part of the receive list. -/
structure Listed (e : AmReceiver) (len : ℕ → ℕ) (pdus : List AmRxPdu) : Prop where
  stored : ∀ p ∈ pdus, p.Stored len
  sorted : pdus.Pairwise e.Before

theorem Before.offset_le (h : e.Before p q) : e.offset p.pduInfo.sn ≤ e.offset q.pduInfo.sn := by
  rcases h with hlt | ⟨heq, -⟩
  · exact hlt.le
  · rw [heq]

theorem Listed.tail (h : e.Listed len (pdu :: next)) : e.Listed len next where
  stored p hp := h.stored p (List.mem_cons_of_mem _ hp)
  sorted := (List.pairwise_cons.mp h.sorted).2

theorem Listed.sublist (h : e.Listed len next) (hsub : cursor.Sublist next) : e.Listed len cursor where
  stored p hp := h.stored p (hsub.subset hp)
  sorted := h.sorted.sublist hsub

/-- The segments of the first PDU of the list, without the first one. -/
def sameSn (pdu : AmRxPdu) (next : List AmRxPdu) : List AmRxPdu :=
  next.takeWhile fun p ↦ p.pduInfo.sn = pdu.pduInfo.sn

/-- The list behind its first PDU. -/
def otherSn (pdu : AmRxPdu) (next : List AmRxPdu) : List AmRxPdu :=
  next.dropWhile fun p ↦ p.pduInfo.sn = pdu.pduInfo.sn

theorem sameSn_append_otherSn (pdu : AmRxPdu) (next : List AmRxPdu) :
    sameSn pdu next ++ otherSn pdu next = next := List.takeWhile_append_dropWhile

theorem sn_of_mem_sameSn (hp : p ∈ sameSn pdu next) : p.pduInfo.sn = pdu.pduInfo.sn := by
  have h := List.mem_takeWhile_imp hp
  simpa using h

theorem sn_ne_of_head_otherSn (hp : p ∈ (otherSn pdu next).head?) : p.pduInfo.sn ≠ pdu.pduInfo.sn := by
  have h := List.head?_dropWhile_not (fun p : AmRxPdu ↦ decide (p.pduInfo.sn = pdu.pduInfo.sn)) next
  rw [otherSn] at hp
  rw [hp] at h
  simpa using h

/-- The list goes on behind its first PDU. -/
theorem Listed.offset_lt_of_mem_otherSn (h : e.Listed len (pdu :: next)) (hp : p ∈ otherSn pdu next) :
    e.offset pdu.pduInfo.sn < e.offset p.pduInfo.sn := by
  obtain ⟨hfirst, hsorted⟩ := List.pairwise_cons.mp h.sorted
  have hrest : (otherSn pdu next).Pairwise e.Before := hsorted.sublist (List.dropWhile_sublist _)
  cases hother : otherSn pdu next with
  | nil =>
    rw [hother] at hp
    cases hp
  | cons q rest =>
    rw [hother] at hp hrest
    have hne : q.pduInfo.sn ≠ pdu.pduInfo.sn := sn_ne_of_head_otherSn (by rw [hother]; rfl)
    have hmem : q ∈ next := (List.dropWhile_sublist _).subset (show q ∈ otherSn pdu next by simp [hother])
    have hlt : e.offset pdu.pduInfo.sn < e.offset q.pduInfo.sn :=
      (hfirst q hmem).resolve_right fun hsame ↦ hne hsame.1.symm
    rcases List.mem_cons.mp hp with rfl | hp
    · exact hlt
    · exact hlt.trans_le ((List.pairwise_cons.mp hrest).1 p hp).offset_le

/-- In a PDU that has been received in part, only the last segment may have the LSF. -/
theorem Listed.lsfLast (h : e.Listed len (pdu :: pdus)) (hsn : ∀ p ∈ pdus, p.pduInfo.sn = pdu.pduInfo.sn)
    (hrf : pdu.pduInfo.rf) : LsfLast pdu.pduInfo.lsf pdus := by
  induction pdus generalizing pdu with
  | nil => trivial
  | cons p pdus ih =>
    obtain ⟨hp, hpdus⟩ := List.forall_mem_cons.mp hsn
    obtain ⟨hfirst, -⟩ := List.pairwise_cons.mp h.sorted
    have hpdu := h.stored pdu List.mem_cons_self
    have hstored := h.stored p (List.mem_cons_of_mem _ List.mem_cons_self)
    have hbehind : pdu.pduInfo.so + pdu.pduInfo.payloadSize ≤ p.pduInfo.so := by
      rcases hfirst p List.mem_cons_self with hlt | hsame
      · rw [hp] at hlt
        exact absurd hlt (lt_irrefl _)
      · exact hsame.2
    have hpos := hpdu.payloadSize_pos
    have hpos' := hstored.payloadSize_pos
    have hend := hstored.end_le
    rw [hp] at hend
    refine ⟨?_, ih h.tail (fun q hq ↦ (hpdus q hq).trans hp.symm) ?_⟩
    · refine Bool.eq_false_iff.mpr fun hlsf ↦ ?_
      have hall := (hpdu.lsf_iff hrf).mp hlsf
      omega
    · refine Bool.not_eq_false _ ▸ fun hwhole ↦ ?_
      have hso := (hstored.whole hwhole).2.1
      omega

/-- In the first PDU of a list, if it has been received in part, only the last segment may have the LSF. -/
theorem Listed.lsfLast_sameSn (h : e.Listed len (pdu :: next)) (hall : pdu.allSegmentsReceived = false) :
    LsfLast pdu.pduInfo.lsf (sameSn pdu next) := by
  have hrf : pdu.pduInfo.rf := by
    by_contra hwhole
    have hyes := ((h.stored pdu List.mem_cons_self).whole (Bool.eq_false_iff.mpr hwhole)).1
    rw [hall] at hyes
    cases hyes
  have hsub : (pdu :: sameSn pdu next).Sublist (pdu :: next) := (List.takeWhile_sublist _).cons_cons _
  exact (h.sublist hsub).lsfLast (fun p hp ↦ sn_of_mem_sameSn hp) hrf

/-- The offset at which a report with enough room ends, when it has got to `d`. -/
def reach (e : AmReceiver) (d : ℕ) (pdus : List AmRxPdu) : ℕ :=
  match pdus.getLast? with
  | none => d
  | some p => min (e.offset e.vrMs) (e.offset p.pduInfo.sn + 1)

/-- The loop has made the report `y`, and is at `sn` if there is still room. -/
def Reports (sn : ℕ) (x : Option (StatusReport × ℕ × Bool)) (y : Option StatusReport) : Prop :=
  x.map (·.1) = y ∧ ∀ t ∈ x, t.1.completed = none → t.2.1 = sn

theorem requests_add (vrR d m n : ℕ) (pdus : List AmRxPdu) :
    requests vrR pdus d (m + n) = requests vrR pdus d m ++ requests vrR pdus (d + m) n := by
  rw [requests, requests, requests, ← List.flatMap_append, List.range'_append_1]

theorem requests_one (vrR d : ℕ) (pdus : List AmRxPdu) :
    requests vrR pdus d 1 =
      pduRequests (snAt vrR d) (pdus.filter fun pdu ↦ pdu.pduInfo.sn = snAt vrR d) := by
  rw [requests, List.range'_one, List.flatMap_singleton]

theorem filter_sn_eq_nil {k : ℕ} (hvrR : e.vrR < 1024) (hk : k < 1024)
    (hpdus : ∀ p ∈ pdus, k < e.offset p.pduInfo.sn) :
    (pdus.filter fun pdu ↦ pdu.pduInfo.sn = snAt e.vrR k) = [] := by
  refine List.filter_eq_nil_iff.mpr fun p hp ↦ ?_
  rw [decide_eq_true_iff]
  intro heq
  have hlt := hpdus p hp
  rw [heq, offset, amDiffSn_snAt hvrR hk] at hlt
  exact lt_irrefl _ hlt

/-- The PDUs before those of a list. -/
theorem requests_before {n : ℕ} (hvrR : e.vrR < 1024) (hn : d + n ≤ 1024)
    (hpdus : ∀ p ∈ pdus, d + n ≤ e.offset p.pduInfo.sn) :
    requests e.vrR pdus d n = (List.range' d n).map fun k ↦ Request.pdu (snAt e.vrR k) := by
  rw [requests, List.map_eq_flatMap]
  refine List.flatMap_congr fun k hk ↦ ?_
  obtain ⟨-, hlt⟩ := List.mem_range'_1.mp hk
  rw [filter_sn_eq_nil hvrR (by omega) fun p hp ↦ by have := hpdus p hp; omega]
  rfl

/-- The PDUs behind the first one of a list. -/
theorem requests_behind {n : ℕ} (hvrR : e.vrR < 1024) (hlist : e.Listed len (pdu :: next))
    (hd : e.offset pdu.pduInfo.sn < d) (hn : d + n ≤ 1024) :
    requests e.vrR (pdu :: next) d n = requests e.vrR (otherSn pdu next) d n := by
  rw [requests, requests]
  refine List.flatMap_congr fun k hk ↦ ?_
  obtain ⟨hle, hlt⟩ := List.mem_range'_1.mp hk
  have hsame : ((pdu :: sameSn pdu next).filter fun p ↦ p.pduInfo.sn = snAt e.vrR k) = [] := by
    refine List.filter_eq_nil_iff.mpr fun p hp ↦ ?_
    rw [decide_eq_true_iff]
    intro heq
    have hsn : p.pduInfo.sn = pdu.pduInfo.sn := by
      rcases List.mem_cons.mp hp with rfl | hp
      · rfl
      · exact sn_of_mem_sameSn hp
    rw [← hsn, heq, offset, amDiffSn_snAt hvrR (by omega)] at hd
    omega
  have hsplit : pdu :: next = (pdu :: sameSn pdu next) ++ otherSn pdu next := by
    rw [List.cons_append, sameSn_append_otherSn]
  rw [hsplit, List.filter_append, hsame, List.nil_append]

/-- The first PDU of a list. -/
theorem requests_first (hvrR : e.vrR < 1024) (hlist : e.Listed len (pdu :: next)) :
    requests e.vrR (pdu :: next) (e.offset pdu.pduInfo.sn) 1 =
      pduRequests pdu.pduInfo.sn (pdu :: sameSn pdu next) := by
  have hsn : snAt e.vrR (e.offset pdu.pduInfo.sn) = pdu.pduInfo.sn :=
    snAt_amDiffSn hvrR (hlist.stored pdu List.mem_cons_self).sn_lt
  have hother := filter_sn_eq_nil hvrR (e.offset_lt pdu.pduInfo.sn) fun p hp ↦
    hlist.offset_lt_of_mem_otherSn hp
  have hsplit : pdu :: next = (pdu :: sameSn pdu next) ++ otherSn pdu next := by
    rw [List.cons_append, sameSn_append_otherSn]
  have hsame : ((pdu :: sameSn pdu next).filter fun p ↦ p.pduInfo.sn = pdu.pduInfo.sn) =
      pdu :: sameSn pdu next := by
    refine List.filter_eq_self.mpr fun p hp ↦ decide_eq_true ?_
    rcases List.mem_cons.mp hp with rfl | hp
    · rfl
    · exact sn_of_mem_sameSn hp
  rw [requests_one]
  rw [hsn] at hother ⊢
  rw [hsplit, List.filter_append, hsame, hother, List.append_nil]

theorem nackLoop_completed (hcompleted : t.completed ≠ none) (cursor : List AmRxPdu) (sn : ℕ) :
    e.nackLoop grant (fuel + 1) cursor sn all t = some (t, sn, all) := by
  cases cursor with
  | nil => rw [nackLoop]
  | cons pdu cursor =>
    rw [nackLoop, if_neg]
    rintro ⟨hnone, -⟩
    exact hcompleted (Option.isNone_iff_eq_none.mp hnone)

theorem bits_le_of_fill {qs : List Request} (h : fill grant qs r = some t) (hr : r.nbBitsTransmitted ≤ grant) :
    t.nbBitsTransmitted ≤ grant := by
  induction qs generalizing r with
  | nil =>
    cases h
    exact hr
  | cons q qs ih =>
    rw [fill] at h
    split_ifs at h with hfit
    · obtain ⟨u, hmeet, hrest⟩ := Option.bind_eq_some_iff.mp h
      refine ih hrest ?_
      rw [meet] at hmeet
      split at hmeet
      · rw [push] at hmeet
        split_ifs at hmeet
        cases hmeet
        exact hfit
      · cases hmeet
        exact hr
    · cases h
      exact hr

theorem reach_of_le (hlist : e.Listed len (pdu :: next)) (hle : e.offset e.vrMs ≤ e.offset pdu.pduInfo.sn) :
    e.reach d (pdu :: next) = e.offset e.vrMs := by
  obtain ⟨hfirst, -⟩ := List.pairwise_cons.mp hlist.sorted
  rw [reach]
  cases hlast : (pdu :: next).getLast? with
  | none => simp at hlast
  | some p =>
    have hp : e.offset pdu.pduInfo.sn ≤ e.offset p.pduInfo.sn := by
      rcases List.mem_cons.mp (List.mem_of_getLast? hlast) with rfl | hp
      · exact le_rfl
      · exact (hfirst p hp).offset_le
    simp only
    omega

theorem reach_cons (hlt : e.offset pdu.pduInfo.sn < e.offset e.vrMs) :
    e.reach d (pdu :: next) = e.reach (e.offset pdu.pduInfo.sn + 1) (otherSn pdu next) := by
  have hsplit : pdu :: next = (pdu :: sameSn pdu next) ++ otherSn pdu next := by
    rw [List.cons_append, sameSn_append_otherSn]
  rw [reach, reach, hsplit, List.getLast?_append]
  cases hother : (otherSn pdu next).getLast? with
  | some p => rfl
  | none =>
    cases hlast : (pdu :: sameSn pdu next).getLast? with
    | none => simp at hlast
    | some p =>
      have hp : p.pduInfo.sn = pdu.pduInfo.sn := by
        rcases List.mem_cons.mp (List.mem_of_getLast? hlast) with rfl | hp
        · rfl
        · exact sn_of_mem_sameSn hp
      simp only [Option.or]
      rw [hp]
      omega

theorem le_reach (hdMs : d ≤ e.offset e.vrMs) (hd : ∀ p ∈ pdus, d ≤ e.offset p.pduInfo.sn) :
    d ≤ e.reach d pdus := by
  rw [reach]
  cases hlast : pdus.getLast? with
  | none => exact le_rfl
  | some p =>
    have hp := hd p (List.mem_of_getLast? hlast)
    simp only
    omega

theorem reach_le (hdMs : d ≤ e.offset e.vrMs) (pdus : List AmRxPdu) : e.reach d pdus ≤ e.offset e.vrMs := by
  rw [reach]
  split
  · exact hdMs
  · exact min_le_left _ _

/-- The requests, from the first PDU of the list on. -/
theorem requests_reach_cons (hvrR : e.vrR < 1024) (hlist : e.Listed len (pdu :: next))
    (hd : d ≤ e.offset pdu.pduInfo.sn) (hlt : e.offset pdu.pduInfo.sn < e.offset e.vrMs) :
    requests e.vrR (pdu :: next) d (e.reach d (pdu :: next) - d) =
      (List.range' d (e.offset pdu.pduInfo.sn - d)).map (fun k ↦ Request.pdu (snAt e.vrR k)) ++
        (pduRequests pdu.pduInfo.sn (pdu :: sameSn pdu next) ++
          requests e.vrR (otherSn pdu next) (e.offset pdu.pduInfo.sn + 1)
            (e.reach (e.offset pdu.pduInfo.sn + 1) (otherSn pdu next) - (e.offset pdu.pduInfo.sn + 1))) := by
  have hMs := e.offset_lt e.vrMs
  have hordered (p : AmRxPdu) (hp : p ∈ pdu :: next) : e.offset pdu.pduInfo.sn ≤ e.offset p.pduInfo.sn := by
    rcases List.mem_cons.mp hp with rfl | hp
    · exact le_rfl
    · exact ((List.pairwise_cons.mp hlist.sorted).1 p hp).offset_le
  have hother (p : AmRxPdu) (hp : p ∈ otherSn pdu next) : e.offset pdu.pduInfo.sn + 1 ≤ e.offset p.pduInfo.sn :=
    hlist.offset_lt_of_mem_otherSn hp
  have hle : e.offset pdu.pduInfo.sn + 1 ≤ e.reach (e.offset pdu.pduInfo.sn + 1) (otherSn pdu next) :=
    le_reach hlt hother
  have hend : e.reach (e.offset pdu.pduInfo.sn + 1) (otherSn pdu next) ≤ e.offset e.vrMs := reach_le hlt _
  have hsplit : e.reach d (pdu :: next) - d = (e.offset pdu.pduInfo.sn - d) +
      (1 + (e.reach (e.offset pdu.pduInfo.sn + 1) (otherSn pdu next) - (e.offset pdu.pduInfo.sn + 1))) := by
    rw [reach_cons hlt]
    omega
  have hbefore := requests_before (d := d) (n := e.offset pdu.pduInfo.sn - d) hvrR (by omega) fun p hp ↦ by
    have hle := hordered p hp
    omega
  rw [hsplit, requests_add, hbefore, Nat.add_sub_cancel' hd, requests_add, requests_first hvrR hlist,
    requests_behind hvrR hlist (Nat.lt_succ_self _) (by omega)]

/-- The requests, if the list begins at VR(MS) or later. -/
theorem requests_reach_of_le (hvrR : e.vrR < 1024) (hlist : e.Listed len (pdu :: next))
    (hdMs : d ≤ e.offset e.vrMs) (hle : e.offset e.vrMs ≤ e.offset pdu.pduInfo.sn) :
    requests e.vrR (pdu :: next) d (e.reach d (pdu :: next) - d) =
      (List.range' d (e.offset e.vrMs - d)).map fun k ↦ Request.pdu (snAt e.vrR k) := by
  have hMs := e.offset_lt e.vrMs
  rw [reach_of_le hlist hle]
  refine requests_before hvrR (by omega) fun p hp ↦ ?_
  rcases List.mem_cons.mp hp with rfl | hp
  · omega
  · have hfirst := ((List.pairwise_cons.mp hlist.sorted).1 p hp).offset_le
    omega

/-- The main loop. -/
theorem nackLoop_reports (hvrR : e.vrR < 1024) (hvrMs : e.vrMs < 1024) (hlist : e.Listed len pdus)
    (hd : ∀ p ∈ pdus, d ≤ e.offset p.pduInfo.sn) (hdMs : d ≤ e.offset e.vrMs) (hr : r.completed = none)
    (hbits : r.nbBitsTransmitted ≤ grant) (hfuel : pdus.length < fuel) :
    Reports (snAt e.vrR (e.reach d pdus)) (e.nackLoop grant fuel pdus (snAt e.vrR d) all r)
      (fill grant (requests e.vrR pdus d (e.reach d pdus - d)) r) := by
  have hMs := e.offset_lt e.vrMs
  have hMsSn : snAt e.vrR (e.offset e.vrMs) = e.vrMs := snAt_amDiffSn hvrR hvrMs
  induction fuel generalizing pdus d r all with
  | zero => omega
  | succ fuel ih =>
    cases pdus with
    | nil =>
      rw [nackLoop, show e.reach d [] = d from rfl, Nat.sub_self]
      exact ⟨rfl, fun t ht _ ↦ by cases ht; rfl⟩
    | cons pdu next =>
      have hfirst := hd pdu List.mem_cons_self
      have hstored := hlist.stored pdu List.mem_cons_self
      have hdSn : amDiffSn (snAt e.vrR d) e.vrR = d := amDiffSn_snAt hvrR (by omega)
      rcases hdMs.eq_or_lt with rfl | hlt
      · have hno : ¬(r.completed.isNone ∧ amDiffSn (snAt e.vrR (e.offset e.vrMs)) e.vrR < amDiffSn e.vrMs e.vrR ∧
            r.nbBitsTransmitted ≤ grant) := by
          rintro ⟨-, hbefore, -⟩
          rw [hdSn] at hbefore
          exact lt_irrefl _ hbefore
        rw [reach_of_le hlist hfirst, Nat.sub_self, nackLoop, if_neg hno]
        exact ⟨rfl, fun t ht _ ↦ by cases ht; rfl⟩
      have hyes : r.completed.isNone ∧ amDiffSn (snAt e.vrR d) e.vrR < amDiffSn e.vrMs e.vrR ∧
          r.nbBitsTransmitted ≤ grant :=
        ⟨Option.isNone_iff_eq_none.mpr hr, by rwa [hdSn], hbits⟩
      have hgap := nackPdus_eq grant 1025 hvrR hstored.sn_lt (le_min hfirst hdMs) (by omega) hr
      have hlength : (otherSn pdu next).length ≤ next.length := (List.dropWhile_sublist _).length_le
      rw [List.length_cons] at hfuel
      obtain ⟨fuel, rfl⟩ : ∃ k, fuel = k + 1 := ⟨fuel - 1, by omega⟩
      rw [nackLoop, if_pos hyes]
      simp only [Option.bind_eq_bind, hgap]
      rcases Nat.lt_or_ge (e.offset pdu.pduInfo.sn) (e.offset e.vrMs) with hlt' | hle
      swap
      · -- the list begins at VR(MS) or later
        rw [requests_reach_of_le hvrR hlist hdMs hle, reach_of_le hlist hle, min_eq_right hle]
        cases hfill : fill grant ((List.range' d (e.offset e.vrMs - d)).map fun k ↦ Request.pdu (snAt e.vrR k)) r with
        | none => exact ⟨rfl, fun t ht ↦ by cases ht⟩
        | some t =>
          simp only [Option.map_some, Option.bind_some]
          by_cases ht : t.completed = none
          · rw [ht, Option.getD_none, if_pos hMsSn, hMsSn]
            exact ⟨rfl, fun u hu _ ↦ by cases hu; rfl⟩
          · have hno : ¬(t.completed.isNone ∧ ¬pdu.allSegmentsReceived ∧ pdu.pduInfo.sn ≠ e.vrMs) := fun h ↦
              ht (Option.isNone_iff_eq_none.mp h.1)
            simp only [if_neg hno, nackLoop_completed ht]
            split_ifs
            all_goals exact ⟨rfl, fun u hu hnone ↦ by cases hu; exact absurd hnone ht⟩
      have hsn : snAt e.vrR (e.offset pdu.pduInfo.sn) = pdu.pduInfo.sn := snAt_amDiffSn hvrR hstored.sn_lt
      have hne : pdu.pduInfo.sn ≠ e.vrMs := by
        intro heq
        rw [heq] at hlt'
        exact lt_irrefl _ hlt'
      have hnext : amNextSn pdu.pduInfo.sn = snAt e.vrR (e.offset pdu.pduInfo.sn + 1) := by
        rw [← amNextSn_snAt, hsn]
      have hother (p : AmRxPdu) (hp : p ∈ otherSn pdu next) : e.offset pdu.pduInfo.sn + 1 ≤ e.offset p.pduInfo.sn :=
        hlist.offset_lt_of_mem_otherSn hp
      have hrest (u : StatusReport) (hu : u.completed = none) (hubits : u.nbBitsTransmitted ≤ grant) :=
        @ih _ u (otherSn pdu next) pdu.allSegmentsReceived
          (hlist.tail.sublist (List.dropWhile_sublist _)) hother hlt' hu hubits (by omega)
      rw [requests_reach_cons hvrR hlist hfirst hlt', reach_cons hlt', min_eq_left hlt'.le, fill_append hr]
      cases hfill : fill grant ((List.range' d (e.offset pdu.pduInfo.sn - d)).map fun k ↦ Request.pdu (snAt e.vrR k))
        r with
      | none => exact ⟨rfl, fun t ht ↦ by cases ht⟩
      | some t =>
        simp only [Option.map_some, Option.bind_some]
        by_cases ht : t.completed = none
        swap
        · have hno : ¬(t.completed.isNone ∧ ¬pdu.allSegmentsReceived ∧ pdu.pduInfo.sn ≠ e.vrMs) := fun h ↦
            ht (Option.isNone_iff_eq_none.mp h.1)
          simp only [if_neg ht, if_neg hno, nackLoop_completed ht]
          split_ifs
          all_goals exact ⟨rfl, fun u hu hnone ↦ by cases hu; exact absurd hnone ht⟩
        have hbits' := bits_le_of_fill hfill hbits
        rw [if_pos ht, fill_append ht, ht, Option.getD_none, hsn, if_neg hne,
          if_pos (show amDiffSn _ _ < amDiffSn _ _ from hlt'), hnext]
        cases hall : pdu.allSegmentsReceived with
        | true =>
          have hnil : pduRequests pdu.pduInfo.sn (pdu :: sameSn pdu next) = [] := by
            rw [pduRequests, hall, if_pos rfl]
          have hfilled : fill grant [] t = some t := rfl
          rw [hnil, hfilled, Option.bind_some, if_pos ht, if_neg (by simp)]
          exact hall ▸ hrest t ht hbits'
        | false =>
          obtain ⟨hfst, hleft⟩ := nackParts_leaves grant (fun p hp ↦ sn_of_mem_sameSn hp)
            (fun p hp ↦ sn_ne_of_head_otherSn hp) (hlist.lsfLast_sameSn hall) hall ht
          rw [sameSn_append_otherSn] at hfst hleft
          have hpart : (none : Option ℕ).isNone ∧ ¬(false = true) ∧ pdu.pduInfo.sn ≠ e.vrMs :=
            ⟨rfl, Bool.false_ne_true, hne⟩
          rw [if_pos hpart, if_pos rfl, ← hfst]
          cases hparts : nackParts grant pdu.pduInfo.sn pdu next t with
          | none => exact ⟨rfl, fun t ht ↦ by cases ht⟩
          | some x =>
            obtain ⟨u, left⟩ := x
            rw [hparts] at hfst hleft
            simp only [Option.map_some, Option.bind_some]
            by_cases hu : u.completed = none
            · obtain rfl : left = otherSn pdu next := hleft _ rfl hu
              rw [if_pos hu]
              exact hall ▸ hrest u hu (bits_le_of_fill hfst.symm hbits')
            · rw [if_neg hu, nackLoop_completed hu]
              exact ⟨rfl, fun v hv hnone ↦ by cases hv; exact absurd hnone hu⟩

end AmReceiver

end EdgeSlice.Rlc
