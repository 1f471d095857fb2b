import EdgeSlice.Rlc.AmStatusFitting

namespace EdgeSlice.Rlc.AmReceiver

open Budget StatusReport

variable {e : AmReceiver} {len : ℕ → ℕ} {b d : ℕ}

/-- What is missing before ACK_SN fits. -/
theorem Consistent.exists_fitting (he : e.Consistent len) (hd : d < e.offset e.fittingAckSn)
    (hb : b < len (snAt e.vrR d)) (hno : ¬e.Has (snAt e.vrR d) b) :
    ∃ n ∈ e.fittingNacks, n.nackSn = snAt e.vrR d ∧ n.Covers b := by
  have hreach := e.reach_lt
  have hfits (q : Request) (hq : q ∈ fitting Request.bits Request.used e.nackRoom e.missingRequests)
      (hsn : q.sn = snAt e.vrR d) (hcovers : q.Covers b) :
      ∃ n ∈ e.fittingNacks, n.nackSn = snAt e.vrR d ∧ n.Covers b := by
    obtain ⟨n, hn, hnackSn, hcovers⟩ := hcovers
    exact ⟨n, List.mem_filterMap.mpr ⟨q, hq, hn⟩, hnackSn.trans hsn, hcovers⟩
  rw [fittingAckSn] at hd
  cases hunmet : unmet Request.bits Request.used e.nackRoom e.missingRequests with
  | none =>
    rw [hunmet, Option.map_none, Option.getD_none, offset, amDiffSn_snAt he.vrR_lt hreach] at hd
    obtain ⟨q, hq, hsn, hcovers⟩ := he.exists_covers hd hb hno
    rw [← fitting_eq_of_unmet hunmet] at hq
    exact hfits q hq hsn hcovers
  | some u =>
    rw [hunmet, Option.map_some, Option.getD_some] at hd
    obtain ⟨rest, hrest⟩ := eq_append_of_unmet hunmet
    have hu : u ∈ e.missingRequests := by
      rw [hrest]
      exact List.mem_append_right _ List.mem_cons_self
    obtain ⟨k, hk, huk⟩ := exists_of_mem_missingRequests hu
    rw [sn_of_mem_pduRequests huk, offset, amDiffSn_snAt he.vrR_lt (by omega)] at hd
    obtain ⟨q, hq, hsn, hcovers⟩ := he.exists_covers (hd.trans hk) hb hno
    have hsorted := missingRequests_sorted he.vrR_lt
    rw [hrest] at hq hsorted
    rcases List.mem_append.mp hq with hq | hq
    · exact hfits q hq hsn hcovers
    · -- from the first request that does not fit, the sequence numbers are not before ACK_SN
      have hle : e.offset u.sn ≤ e.offset q.sn := by
        rcases List.mem_cons.mp hq with rfl | hq
        · exact le_rfl
        · exact (List.pairwise_cons.mp (List.pairwise_append.mp hsorted).2.1).1 q hq
      rw [sn_of_mem_pduRequests huk, hsn, offset, amDiffSn_snAt he.vrR_lt (by omega), offset,
        amDiffSn_snAt he.vrR_lt (by omega)] at hle
      omega

/-- A STATUS PDU is built, and it acknowledges nothing that is missing. -/
def SoundStatus (len : ℕ → ℕ) (e : AmReceiver) : Prop :=
  ∃ e' info, e.sendStatusPdu = some (e', info) ∧
    ∀ d < e.offset info.ackSn, ∀ b < len (snAt e.vrR d), ¬e.Has (snAt e.vrR d) b →
      ∃ n ∈ info.nackList, n.nackSn = snAt e.vrR d ∧ n.Covers b

/-- A segment of a PDU. -/
def segmentOf (sn so : ℕ) (size : ℤ) (lsf : Bool) : AmRxPdu :=
  ⟨⟨true, true, false, 0, false, sn, lsf, so, [], size, 4, size, 4⟩, false⟩

/-- PDU 0 has four bytes, of which the last two have been received, and PDU 1 has been received. -/
def halfReceived : AmReceiver :=
  ⟨[segmentOf 0 2 2 true, ⟨⟨true, false, false, 0, false, 1, false, 0, [], 4, 2, 4, 2⟩, true⟩], 0, 2, 10⟩

theorem halfReceived_consistent : halfReceived.Consistent fun _ ↦ 4 where
  vrR_lt := by decide
  vrMs_lt := by decide
  len_le _ := by decide
  listed := by
    refine ⟨List.forall_mem_cons.mpr ⟨?_, List.forall_mem_singleton.mpr ?_⟩, ?_⟩
    · exact ⟨by decide, by decide, by decide, by decide, by decide⟩
    · exact ⟨by decide, by decide, by decide, by decide, by decide⟩
    · exact List.pairwise_pair.mpr (.inl (by decide))
  complete := by
    refine List.forall_mem_cons.mpr ⟨fun h ↦ (by cases h), List.forall_mem_singleton.mpr fun _ b hb ↦ ?_⟩
    exact ⟨_, List.mem_cons_of_mem _ List.mem_cons_self, rfl, Int.natCast_nonneg b, by
      show (b : ℤ) < 0 + 4
      omega⟩
  missing _ := by
    refine ⟨0, by decide, ?_⟩
    rintro ⟨p, hp, hsn, hholds⟩
    rcases List.mem_cons.mp hp with rfl | hp
    · exact absurd hholds.1 (by decide)
    · rw [List.mem_singleton.mp hp] at hsn
      cases hsn

/-- Every other byte of PDU 0 has been received, `n` in all. -/
def everyOther (n : ℕ) : AmReceiver :=
  ⟨(List.range n).map fun i ↦ segmentOf 0 (2 * i + 1) 1 false, 0, 1, 5400⟩

theorem everyOther_consistent {n : ℕ} (hn : n ≤ 1024) : (everyOther n).Consistent fun _ ↦ 2049 where
  vrR_lt := show 0 < 1024 by decide
  vrMs_lt := show 1 < 1024 by decide
  len_le _ := by decide
  listed := by
    refine ⟨List.forall_mem_map.mpr fun i hi ↦ ?_, List.pairwise_map.mpr ?_⟩
    · have hlt := List.mem_range.mp hi
      have hend : ((2 * i + 1 : ℕ) : ℤ) + 1 < (2049 : ℕ) := by omega
      exact ⟨show 0 < 1024 by decide, Int.one_pos, hend.le, fun h ↦ (by cases h),
        fun _ ↦ iff_of_false Bool.false_ne_true hend.ne⟩
    · refine List.pairwise_lt_range.imp fun {i j} hlt ↦ .inr ⟨rfl, ?_⟩
      show ((2 * i + 1 : ℕ) : ℤ) + 1 ≤ (2 * j + 1 : ℕ)
      omega
  complete := List.forall_mem_map.mpr fun i _ h ↦ by cases h
  missing _ := by
    refine ⟨0, by decide, ?_⟩
    rintro ⟨p, hp, -, hholds⟩
    obtain ⟨i, -, rfl⟩ := List.mem_map.mp hp
    have hso : ((2 * i + 1 : ℕ) : ℤ) ≤ (0 : ℕ) := hholds.1
    omega

/-- Each further segment gives an entry, and so does the end of the PDU. -/
theorem segmentRequests_everyOther (k n : ℕ) :
    (segmentRequests 0 ((List.range' (k + 1) n).map fun i ↦ segmentOf 0 (2 * i + 1) 1 false) false 2).length =
      n + 1 := by
  induction n generalizing k with
  | zero => rfl
  | succ n ih =>
    have hhole : (2 : ℤ) < (segmentOf 0 (2 * (k + 1) + 1) 1 false).pduInfo.so := by
      show (2 : ℤ) < (2 * (k + 1) + 1 : ℕ)
      omega
    rw [List.range'_succ, List.map_cons, segmentRequests, if_pos hhole, List.length_cons]
    exact congrArg (· + 1) (ih (k + 1))

theorem length_fittingNacks_everyOther {n : ℕ} (hn : n + 1 ≤ 1024) :
    (everyOther (n + 1)).fittingNacks.length = n + 2 := by
  have hconsistent := everyOther_consistent hn
  have hlist : (everyOther (n + 1)).receiverBuffer = segmentOf 0 1 1 false ::
      (List.range' (0 + 1) n).map fun i ↦ segmentOf 0 (2 * i + 1) 1 false := by
    rw [everyOther, List.range_eq_range', List.range'_succ, List.map_cons]
  have hsame : ∀ p ∈ (List.range' (0 + 1) n).map fun i ↦ segmentOf 0 (2 * i + 1) 1 false,
      decide (p.pduInfo.sn = (segmentOf 0 1 1 false).pduInfo.sn) = true :=
    List.forall_mem_map.mpr fun _ _ ↦ rfl
  have hnext := segmentRequests_everyOther 0 n
  have hlisted := hconsistent.listed
  rw [hlist] at hlisted
  generalize (List.range' (0 + 1) n).map (fun i ↦ segmentOf 0 (2 * i + 1) 1 false) = next at *
  have hoffset : (everyOther (n + 1)).offset (segmentOf 0 1 1 false).pduInfo.sn = 0 :=
    show amDiffSn 0 0 = 0 by decide
  have hMs : (everyOther (n + 1)).offset (everyOther (n + 1)).vrMs = 1 := show amDiffSn 1 0 = 1 by decide
  have hreach : (everyOther (n + 1)).reach 0 (everyOther (n + 1)).receiverBuffer = 1 := by
    have hother : otherSn (segmentOf 0 1 1 false) next = [] := List.dropWhile_eq_nil_iff.mpr hsame
    rw [hlist, reach_cons (by omega), hother, hoffset]
    rfl
  have hmissing : (everyOther (n + 1)).missingRequests =
      .room 0 :: .part 0 0 0 :: segmentRequests 0 next false 2 := by
    have hfirst := requests_first hconsistent.vrR_lt hlisted
    have htake : sameSn (segmentOf 0 1 1 false) next = next := List.takeWhile_eq_self_iff.mpr hsame
    rw [hoffset, htake] at hfirst
    rw [missingRequests, hreach, hlist, hfirst]
    rfl
  have hfits : fitting Request.bits Request.used (everyOther (n + 1)).nackRoom (everyOther (n + 1)).missingRequests =
      (everyOther (n + 1)).missingRequests := by
    have hbits (q : Request) (hq : q ∈ (everyOther (n + 1)).missingRequests) : q.bits ≤ Nack.partBits := by
      obtain ⟨k, -, hq⟩ := exists_of_mem_missingRequests hq
      exact bits_le_of_mem_pduRequests hq
    refine fitting_eq_self hbits (fun q hq ↦ q.used_le.trans (hbits q hq)) ?_
    rw [hmissing, List.length_cons, List.length_cons, hnext]
    show 42 * (n + 1 + 1 + 1) ≤ 5400 <<< 3 - 15
    omega
  have hparts : ((segmentRequests 0 next false 2).filterMap Request.nack).length = n + 1 := by
    rw [← hnext]
    refine List.filterMap_length_eq_length.mpr fun q hq ↦ ?_
    obtain ⟨soStart, soEnd, rfl⟩ := segmentRequests_of_mem hq
    rfl
  have hleading : (Request.part 0 0 0).nack = some (.ofPart 0 0 0) := rfl
  rw [fittingNacks, entries, hfits, hmissing, List.filterMap_cons_none rfl, List.filterMap_cons_some hleading,
    List.length_cons, hparts]

end EdgeSlice.Rlc.AmReceiver
