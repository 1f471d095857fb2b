import EdgeSlice.SequenceSpace
import EdgeSlice.Rlc.AmTransmitter
import Mathlib.Data.Set.Insert

namespace EdgeSlice.Rlc

open Function

/-- The sequence number `d` after `a`. -/
def snAt (a d : ℕ) : ℕ := (a + d) % 1024

section Offsets

variable {a d e sn snref : ℕ}

theorem amDiffSn_eq (sn snref : ℕ) : amDiffSn sn snref = (sn + 1024 - snref) % 1024 :=
  Nat.and_two_pow_sub_one_eq_mod _ 10

theorem amDiffSn_lt (sn snref : ℕ) : amDiffSn sn snref < 1024 := by
  rw [amDiffSn_eq]
  exact Nat.mod_lt _ (by decide)

theorem snAt_lt (a d : ℕ) : snAt a d < 1024 := Nat.mod_lt _ (by decide)

theorem mask_succ_snAt (a d : ℕ) : (snAt a d + 1) &&& 0x3FF = snAt a (d + 1) := by
  have hmask : (snAt a d + 1) &&& 0x3FF = (snAt a d + 1) % 2 ^ 10 :=
    Nat.and_two_pow_sub_one_eq_mod _ 10
  rw [hmask]
  exact SequenceSpace.succ_mod 1024 (a + d)

theorem amNextSn_snAt (a d : ℕ) : amNextSn (snAt a d) = snAt a (d + 1) := mask_succ_snAt a d

theorem amDiffSn_snAt (ha : a < 1024) (hd : d < 1024) : amDiffSn (snAt a d) a = d := by
  rw [amDiffSn_eq, snAt]
  omega

theorem snAt_amDiffSn (ha : a < 1024) (hsn : sn < 1024) : snAt a (amDiffSn sn a) = sn := by
  rw [amDiffSn_eq, snAt]
  omega

theorem snAt_zero (ha : a < 1024) : snAt a 0 = a := Nat.mod_eq_of_lt ha

theorem snAt_ne (ha : a < 1024) (hd : d < 1024) (he : e < 1024) (hne : d ≠ e) : snAt a d ≠ snAt a e := by
  intro heq
  apply hne
  rw [← amDiffSn_snAt ha hd, heq, amDiffSn_snAt ha he]

/-- PDUs that are less than a window apart have different slots. -/
theorem slot_ne (a : ℕ) (hde : d < e) (hed : e < d + 512) :
    snAt a d % rlcAmWindowSize ≠ snAt a e % rlcAmWindowSize := by
  simp only [snAt, rlcAmWindowSize, Nat.mod_mod_of_dvd _ (show 512 ∣ 1024 by decide)]
  exact SequenceSpace.mod_ne (by omega) (by omega)

end Offsets

/-- `rlc_am_ack_pdu` fails for this PDU: it is acknowledged and is still to be sent again. -/
def AmTxPdu.Stuck (p : AmTxPdu) : Prop := p.memBlock.isSome ∧ p.retxPayloadSize ≠ 0 ∧ p.ack

instance (p : AmTxPdu) : Decidable p.Stuck := inferInstanceAs (Decidable (_ ∧ _ ∧ _))

namespace AmTransmitter

variable {s t u : AmTransmitter} {A B : Set ℕ} {q r : List ℕ} {a d e n sn target fuel : ℕ} {free : Bool}

/-- The buffer entry of a PDU. -/
def pduOf (s : AmTransmitter) (sn : ℕ) : AmTxPdu := s.txDataPduBuffer (sn % rlcAmWindowSize)

/-- Between `s` and `t` the slots in `A` have been written and the PDUs in `r` have been
acknowledged. -/
structure Frame (A : Set ℕ) (r : List ℕ) (s t : AmTransmitter) : Prop where
  vtA_eq : t.vtA = s.vtA
  vtS_eq : t.vtS = s.vtS
  inputSdus_eq : t.inputSdus = s.inputSdus
  nextSduIndex_eq : t.nextSduIndex = s.nextSduIndex
  currentSduIndex_eq : t.currentSduIndex = s.currentSduIndex
  sdusIndex_eq : ∀ i, (t.txDataPduBuffer i).sdusIndex = (s.txDataPduBuffer i).sdusIndex
  acked_eq : t.acked = s.acked ++ r
  buffer_eq : ∀ i ∉ A, t.txDataPduBuffer i = s.txDataPduBuffer i

theorem Frame.refl (s : AmTransmitter) : Frame ∅ [] s s :=
  ⟨rfl, rfl, rfl, rfl, rfl, fun _ ↦ rfl, (List.append_nil _).symm, fun _ _ ↦ rfl⟩

theorem Frame.trans (h : Frame A r s t) (h' : Frame B q t u) : Frame (A ∪ B) (r ++ q) s u where
  vtA_eq := h'.vtA_eq.trans h.vtA_eq
  vtS_eq := h'.vtS_eq.trans h.vtS_eq
  inputSdus_eq := h'.inputSdus_eq.trans h.inputSdus_eq
  nextSduIndex_eq := h'.nextSduIndex_eq.trans h.nextSduIndex_eq
  currentSduIndex_eq := h'.currentSduIndex_eq.trans h.currentSduIndex_eq
  sdusIndex_eq i := (h'.sdusIndex_eq i).trans (h.sdusIndex_eq i)
  acked_eq := by rw [h'.acked_eq, h.acked_eq, List.append_assoc]
  buffer_eq i hi := by
    rw [Set.mem_union, not_or] at hi
    exact (h'.buffer_eq i hi.2).trans (h.buffer_eq i hi.1)

theorem Frame.mono (h : Frame A r s t) (hAB : A ⊆ B) : Frame B r s t :=
  { h with buffer_eq := fun i hi ↦ h.buffer_eq i fun hA ↦ hi (hAB hA) }

theorem Frame.pduOf_eq (h : Frame A r s t) (hsn : sn % rlcAmWindowSize ∉ A) : t.pduOf sn = s.pduOf sn :=
  h.buffer_eq _ hsn

/-- Writing a slot in `A` keeps the rest. -/
theorem Frame.setPdu {p : AmTxPdu} (h : Frame A r s t) (hp : p.sdusIndex = (t.pduOf sn).sdusIndex)
    (hA : sn % rlcAmWindowSize ∈ A) : Frame A r s (t.setPdu sn p) where
  vtA_eq := h.vtA_eq
  vtS_eq := h.vtS_eq
  inputSdus_eq := h.inputSdus_eq
  nextSduIndex_eq := h.nextSduIndex_eq
  currentSduIndex_eq := h.currentSduIndex_eq
  sdusIndex_eq i := by
    rcases eq_or_ne i (sn % rlcAmWindowSize) with rfl | hne
    · have hself : (t.setPdu sn p).txDataPduBuffer (sn % rlcAmWindowSize) = p := update_self _ _ _
      rw [hself, hp]
      exact h.sdusIndex_eq _
    · have hother : (t.setPdu sn p).txDataPduBuffer i = t.txDataPduBuffer i := update_of_ne hne _ _
      rw [hother]
      exact h.sdusIndex_eq i
  acked_eq := h.acked_eq
  buffer_eq i hi := by
    have hne : i ≠ sn % rlcAmWindowSize := by
      rintro rfl
      exact hi hA
    have hother : (t.setPdu sn p).txDataPduBuffer i = t.txDataPduBuffer i := update_of_ne hne _ _
    rw [hother]
    exact h.buffer_eq i hi

theorem pduOf_setPdu (sn : ℕ) (p : AmTxPdu) (s : AmTransmitter) : (s.setPdu sn p).pduOf sn = p :=
  update_self _ _ _

theorem ackPdu_of_stuck (hstuck : (s.pduOf sn).Stuck) (free : Bool) : s.ackPdu sn free = none := by
  obtain ⟨hmem, hretx, hack⟩ := hstuck
  simp only [pduOf] at hmem hretx hack
  simp only [ackPdu]
  rw [if_pos hmem, if_pos hretx, if_pos hack]

theorem ackPdu_frame (hfree : ¬(s.pduOf sn).Stuck) (free : Bool) :
    ∃ t, s.ackPdu sn free = some t ∧ Frame {sn % rlcAmWindowSize} [sn] s t := by
  have hframe (b p : ℤ) : Frame {sn % rlcAmWindowSize} [sn] s
      { s with acked := s.acked ++ [sn], retransNumBytesToRetransmit := b, retransNumPdus := p } :=
    ⟨rfl, rfl, rfl, rfl, rfl, fun _ ↦ rfl, rfl, fun _ _ ↦ rfl⟩
  simp only [ackPdu]
  split_ifs with hmem hretx hack hback hback
  · exact absurd ⟨hmem, hretx, hack⟩ hfree
  all_goals exact ⟨_, rfl, (hframe _ _).setPdu rfl (Set.mem_singleton _)⟩

/-- The acknowledgement of `n` PDUs from the one `d` after `a` on. -/
def ackRange (free : Bool) (a : ℕ) : ℕ → ℕ → AmTransmitter → Option AmTransmitter
  | 0, _, s => some s
  | n + 1, d, s => do
    let s ← s.ackPdu (snAt a d) free
    ackRange free a n (d + 1) s

theorem ackRange_of_stuck (hspan : n ≤ 512) (hde : d ≤ e) (hed : e < d + n)
    (hstuck : (s.pduOf (snAt a e)).Stuck) : s.ackRange free a n d = none := by
  induction n generalizing d s with
  | zero => omega
  | succ n ih =>
    rw [ackRange]
    rcases hde.eq_or_lt with rfl | hlt
    · rw [ackPdu_of_stuck hstuck]
      rfl
    · by_cases hfirst : (s.pduOf (snAt a d)).Stuck
      · rw [ackPdu_of_stuck hfirst]
        rfl
      · obtain ⟨t, hack, hframe⟩ := ackPdu_frame hfirst free
        rw [hack]
        refine ih (by omega) (by omega) (by omega) ?_
        have hne := slot_ne a hlt (by omega)
        rwa [hframe.pduOf_eq fun hmem ↦ hne (Set.mem_singleton_iff.mp hmem).symm]

/-- The slots of the `n` PDUs from the one `d` after `a` on. -/
def slots (a d n : ℕ) : Set ℕ := {i | ∃ e, d ≤ e ∧ e < d + n ∧ i = snAt a e % rlcAmWindowSize}

theorem not_mem_slots (a : ℕ) (hde : d + n ≤ e) (hed : e < d + 512) :
    snAt a e % rlcAmWindowSize ∉ slots a d n := by
  rintro ⟨k, hdk, hkd, heq⟩
  exact slot_ne a (show k < e by omega) (by omega) heq.symm

theorem ackRange_frame (free : Bool) (hspan : n ≤ 512) (hfree : ∀ e, d ≤ e → e < d + n → ¬(s.pduOf (snAt a e)).Stuck) :
    ∃ t, s.ackRange free a n d = some t ∧ Frame (slots a d n) ((List.range' d n).map (snAt a)) s t := by
  induction n generalizing d s with
  | zero => exact ⟨s, rfl, (Frame.refl s).mono (Set.empty_subset _)⟩
  | succ n ih =>
    obtain ⟨t, hack, hframe⟩ := ackPdu_frame (hfree d le_rfl (by omega)) free
    have hrest (e : ℕ) (hde : d + 1 ≤ e) (hed : e < d + 1 + n) : ¬(t.pduOf (snAt a e)).Stuck := by
      have hne := slot_ne a (show d < e by omega) (by omega)
      rw [hframe.pduOf_eq fun hmem ↦ hne (Set.mem_singleton_iff.mp hmem).symm]
      exact hfree e (by omega) (by omega)
    obtain ⟨u, hrange, hframe'⟩ := ih (by omega) hrest
    refine ⟨u, ?_, ?_⟩
    · rw [ackRange, hack]
      exact hrange
    · rw [List.range'_succ, List.map_cons]
      refine (hframe.trans hframe').mono ?_
      rintro i (hi | ⟨e, hde, hed, rfl⟩)
      · exact ⟨d, le_rfl, by omega, Set.mem_singleton_iff.mp hi⟩
      · exact ⟨e, by omega, by omega, rfl⟩

theorem ackPdu_frame_of_eq (h : s.ackPdu sn free = some t) : Frame {sn % rlcAmWindowSize} [sn] s t := by
  by_cases hstuck : (s.pduOf sn).Stuck
  · rw [ackPdu_of_stuck hstuck] at h
    cases h
  · obtain ⟨u, hu, hframe⟩ := ackPdu_frame hstuck free
    obtain rfl := Option.some.inj (h.symm.trans hu)
    exact hframe

theorem ackRange_frame_of_eq (h : s.ackRange free a n d = some t) :
    ∃ A, Frame A ((List.range' d n).map (snAt a)) s t := by
  induction n generalizing d s with
  | zero =>
    obtain rfl := Option.some.inj h
    exact ⟨_, Frame.refl s⟩
  | succ n ih =>
    rw [ackRange, Option.bind_eq_bind, Option.bind_eq_some_iff] at h
    obtain ⟨u, hack, hrange⟩ := h
    obtain ⟨A, hframe⟩ := ih hrange
    rw [List.range'_succ, List.map_cons]
    exact ⟨_, (ackPdu_frame_of_eq hack).trans hframe⟩

theorem ackUpTo_eq (ha : a < 1024) (hde : d ≤ e) (he : e < 1024) (hfuel : e - d < fuel) :
    s.ackUpTo (snAt a e) fuel (snAt a d) = s.ackRange true a (e - d) d := by
  induction fuel generalizing d s with
  | zero => omega
  | succ fuel ih =>
    rw [ackUpTo]
    rcases hde.eq_or_lt with rfl | hlt
    · rw [if_neg fun hne ↦ hne rfl, Nat.sub_self]
      rfl
    · obtain ⟨n, hn⟩ : ∃ n, e - d = n + 1 := ⟨e - d - 1, by omega⟩
      rw [if_pos (snAt_ne ha (by omega) he hlt.ne), hn, ackRange]
      congr 1
      funext t
      rw [amNextSn_snAt, ih (by omega) (by omega), show e - (d + 1) = n by omega]

end AmTransmitter

end EdgeSlice.Rlc
