import EdgeSlice.Rlc.AmAcknowledgement

namespace EdgeSlice.Rlc

namespace Nack

variable {p q : AmTxPdu} {group : List Nack} {n last : Nack}

theorem sn_lt (n : Nack) : n.nackSn < 1024 := n.nackSn_lt

/-- The NACK is for all bytes of its PDU. -/
def WholePdu (n : Nack) : Prop := n.soStart = 0 ∧ n.soEnd = rlcAmStatusPduSoEndAllBytes

instance (n : Nack) : Decidable n.WholePdu := inferInstanceAs (Decidable (_ ∧ _))

/-- The last byte that the NACK is for. -/
def soStop (p : AmTxPdu) (n : Nack) : ℕ :=
  if n.soEnd = rlcAmStatusPduSoEndAllBytes then p.payloadSize - 1 else n.soEnd

/-- The NACK is for some bytes of the PDU. -/
def PartOf (p : AmTxPdu) (n : Nack) : Prop :=
  ¬n.WholePdu ∧ n.soStart ≤ n.soStop p ∧ n.soStop p < p.payloadSize

instance (p : AmTxPdu) (n : Nack) : Decidable (n.PartOf p) := inferInstanceAs (Decidable (_ ∧ _ ∧ _))

/-- A NACK that a PDU of `size` bytes can have. -/
def InPdu (size : ℕ) (n : Nack) : Prop :=
  n.e2 = false ∧ n.WholePdu ∨
    n.e2 = true ∧ ¬n.WholePdu ∧ n.soStart < size ∧ n.soStart ≤ n.soEnd ∧
      (n.soEnd = rlcAmStatusPduSoEndAllBytes ∨ n.soEnd < size)

/-- The NACK is the first one for its PDU, or for bytes behind those of the NACK before. -/
def Continues (p : AmTxPdu) (n : Nack) : List Nack → Prop
  | [] => n.WholePdu ∧ ¬p.ack ∨ n.PartOf p
  | last :: group => n.PartOf p ∧ ¬last.WholePdu ∧ last.soStop p < n.soStart ∧
      (last :: group).length < rlcAmMaxHolesReportPerPdu

instance (p : AmTxPdu) (n : Nack) : ∀ group, Decidable (n.Continues p group)
  | [] => inferInstanceAs (Decidable (_ ∧ _ ∨ _))
  | _ :: _ => inferInstanceAs (Decidable (_ ∧ _ ∧ _ ∧ _))

/-- The PDU can be sent again as the NACK asks. `group` are the NACKs for the same PDU just before,
the last one first. -/
def Fits (p : AmTxPdu) (group : List Nack) (n : Nack) : Prop :=
  p.memBlock.isSome ∧ ¬p.maxRetransmit ∧ n.Continues p group

instance (p : AmTxPdu) (group : List Nack) (n : Nack) : Decidable (n.Fits p group) :=
  inferInstanceAs (Decidable (_ ∧ _ ∧ _))

/-- `q` is what the NACKs in `group` have made of `p`. -/
structure Took (p : AmTxPdu) (group : List Nack) (q : AmTxPdu) : Prop where
  memBlock_eq : q.memBlock = p.memBlock
  payloadSize_eq : q.payloadSize = p.payloadSize
  maxRetransmit_eq : q.maxRetransmit = p.maxRetransmit
  sdusIndex_eq : q.sdusIndex = p.sdusIndex
  fresh : group = [] → q = p
  whole : ∀ last ∈ group.head?, last.WholePdu → q.holes = []
  parts : ∀ last ∈ group.head?, ¬last.WholePdu →
    q.holes.length = group.length ∧ ∃ start, q.holes.getLast? = some (start, last.soStop p)

theorem Took.nil (p : AmTxPdu) : Took p [] p where
  memBlock_eq := rfl
  payloadSize_eq := rfl
  maxRetransmit_eq := rfl
  sdusIndex_eq := rfl
  fresh _ := rfl
  whole _ h := by cases h
  parts _ h := by cases h

/-- `schedule` keeps what counts. -/
theorem Took.schedule (h : Took p group q) (hne : group ≠ []) (again increment : Bool) (size : ℕ) :
    Took p group (q.schedule again increment size).1 := by
  obtain ⟨hmem, hpayload, hmax, hsdus, -, hwhole, hparts⟩ := h
  have hnever (r : AmTxPdu) : group = [] → r = p := fun hnil ↦ absurd hnil hne
  simp only [AmTxPdu.schedule]
  split_ifs
  all_goals exact ⟨hmem, hpayload, hmax, hsdus, hnever _, hwhole, hparts⟩

theorem soStop_def (p : AmTxPdu) (n : Nack) :
    (if n.soEnd = rlcAmStatusPduSoEndAllBytes then p.payloadSize - 1 else n.soEnd) = n.soStop p := rfl

theorem takeNack_of_backward (hmem : p.memBlock.isSome) (hback : n.soEnd < n.soStart) (again : Bool) :
    p.takeNack again n.soStart n.soEnd = .abort := by
  have hstored : ¬p.memBlock.isNone := by
    rw [Option.isNone_iff_eq_none]
    exact Option.isSome_iff_ne_none.mp hmem
  rw [AmTxPdu.takeNack, if_neg hstored, if_pos (not_le.mpr hback)]

/-- The first NACK for a PDU. -/
theorem takeNack_first (hmem : p.memBlock.isSome) (hpos : 0 < p.payloadSize) (horder : n.soStart ≤ n.soEnd) :
    if n.Fits p [] then
      ∃ q increment size, p.takeNack false n.soStart n.soEnd = .accepted q increment size ∧ Took p [n] q
    else p.takeNack false n.soStart n.soEnd = .refused := by
  have hstored : ¬p.memBlock.isNone := by
    rw [Option.isNone_iff_eq_none]
    exact Option.isSome_iff_ne_none.mp hmem
  simp only [AmTxPdu.takeNack, soStop_def]
  rw [if_neg hstored, if_neg (not_not_intro horder)]
  by_cases hwhole : n.soStart = 0 ∧ n.soEnd = rlcAmStatusPduSoEndAllBytes
  · have hpart : ¬n.PartOf p := fun hpart ↦ hpart.1 hwhole
    rw [if_pos hwhole]
    by_cases htake : ¬p.ack ∧ ¬p.maxRetransmit
    · have hfits : n.Fits p [] := ⟨hmem, htake.2, .inl ⟨hwhole, htake.1⟩⟩
      rw [if_pos hfits, if_pos ⟨Bool.false_ne_true, htake⟩, if_pos hpos]
      refine ⟨_, _, _, rfl, rfl, rfl, rfl, rfl, fun h ↦ (by cases h), fun _ _ _ ↦ rfl, ?_⟩
      intro last hlast hpart
      obtain rfl := Option.some.inj hlast
      exact absurd hwhole hpart
    · have hfits : ¬n.Fits p [] := fun h ↦ htake ⟨(h.2.2.resolve_right hpart).2, h.2.1⟩
      rw [if_neg hfits, if_neg fun h ↦ htake h.2]
  · rw [if_neg hwhole]
    by_cases hmax : p.maxRetransmit
    · have hfits : ¬n.Fits p [] := fun h ↦ h.2.1 hmax
      rw [if_neg hfits, if_neg (not_not_intro hmax)]
    · rw [if_pos hmax]
      by_cases hpart : n.PartOf p
      · have hfits : n.Fits p [] := ⟨hmem, hmax, .inr hpart⟩
        rw [if_pos hfits]
        simp only [hpart.2, and_self, if_true, Bool.false_eq_true, not_false_eq_true]
        refine ⟨_, _, _, rfl, rfl, rfl, rfl, rfl, fun h ↦ (by cases h), ?_, ?_⟩
        · intro last hlast hall
          obtain rfl := Option.some.inj hlast
          exact absurd hall hwhole
        · intro last hlast _
          obtain rfl := Option.some.inj hlast
          exact ⟨rfl, _, rfl⟩
      · have hfits : ¬n.Fits p [] := fun h ↦ hpart (h.2.2.resolve_left fun h ↦ hwhole h.1)
        have hsize : ¬(n.soStart ≤ n.soStop p ∧ n.soStop p < p.payloadSize) := fun h ↦ hpart ⟨hwhole, h⟩
        rw [if_neg hfits]
        simp only [hsize, if_false]

/-- A further NACK for a PDU. -/
theorem takeNack_again (htook : Took p (last :: group) q) (hmem : p.memBlock.isSome)
    (horder : n.soStart ≤ n.soEnd) :
    if n.Fits p (last :: group) then
      ∃ r increment size, q.takeNack true n.soStart n.soEnd = .accepted r increment size ∧
        Took p (n :: last :: group) r
    else q.takeNack true n.soStart n.soEnd = .refused := by
  have hstored : ¬q.memBlock.isNone := by
    rw [htook.memBlock_eq, Option.isNone_iff_eq_none]
    exact Option.isSome_iff_ne_none.mp hmem
  simp only [AmTxPdu.takeNack, htook.payloadSize_eq, htook.maxRetransmit_eq, soStop_def]
  rw [if_neg hstored, if_neg (not_not_intro horder)]
  by_cases hwhole : n.soStart = 0 ∧ n.soEnd = rlcAmStatusPduSoEndAllBytes
  · have hfits : ¬n.Fits p (last :: group) := fun h ↦ h.2.2.1.1 hwhole
    rw [if_neg hfits, if_pos hwhole, if_neg fun h ↦ h.1 trivial]
  rw [if_neg hwhole]
  by_cases hmax : p.maxRetransmit
  · have hfits : ¬n.Fits p (last :: group) := fun h ↦ h.2.1 hmax
    rw [if_neg hfits, if_neg (not_not_intro hmax)]
  rw [if_pos hmax]
  by_cases hpart : n.PartOf p
  · simp only [hpart.2, and_self, if_true, not_true_eq_false, if_false]
    by_cases hlast : last.WholePdu
    · have hfits : ¬n.Fits p (last :: group) := fun h ↦ h.2.2.2.1 hlast
      rw [htook.whole last rfl hlast, if_neg hfits]
      rfl
    · obtain ⟨hlength, start, hstop⟩ := htook.parts last rfl hlast
      simp only [hstop, hlength]
      by_cases hnext : (last :: group).length < rlcAmMaxHolesReportPerPdu ∧ last.soStop p < n.soStart
      · have hfits : n.Fits p (last :: group) := ⟨hmem, hmax, hpart, hlast, hnext.2, hnext.1⟩
        rw [if_pos hnext, if_pos hfits]
        refine ⟨_, _, _, rfl, htook.memBlock_eq, rfl, rfl, htook.sdusIndex_eq, fun h ↦ (by cases h), ?_, ?_⟩
        · intro m hm hall
          obtain rfl := Option.some.inj hm
          exact absurd hall hwhole
        · intro m hm _
          obtain rfl := Option.some.inj hm
          refine ⟨?_, n.soStart, ?_⟩
          · rw [List.length_append, hlength]
            rfl
          · rw [List.getLast?_append]
            rfl
      · have hfits : ¬n.Fits p (last :: group) := fun h ↦ hnext ⟨h.2.2.2.2.2, h.2.2.2.2.1⟩
        rw [if_neg hnext, if_neg hfits]
  · have hfits : ¬n.Fits p (last :: group) := fun h ↦ hpart h.2.2.1
    have hsize : ¬(n.soStart ≤ n.soStop p ∧ n.soStop p < p.payloadSize) := fun h ↦ hpart ⟨hwhole, h⟩
    rw [if_neg hfits]
    simp only [hsize, if_false]

end Nack

namespace AmTransmitter

variable {p : AmTxPdu} {group : List Nack} {n : Nack} {prevNackSn : ℕ} {s : AmTransmitter}

theorem nackPdu_of_backward (hmem : (s.pduOf n.nackSn).memBlock.isSome) (hback : n.soEnd < n.soStart)
    (prevNackSn : ℕ) : s.nackPdu n.nackSn prevNackSn n.soStart n.soEnd = none := by
  have habort := Nack.takeNack_of_backward hmem hback (prevNackSn = n.nackSn)
  rw [pduOf] at habort
  rw [nackPdu, habort]

theorem nackPdu_of_missing (hmem : (s.pduOf n.nackSn).memBlock = none) (prevNackSn : ℕ) :
    s.nackPdu n.nackSn prevNackSn n.soStart n.soEnd = some (s, false) := by
  rw [pduOf] at hmem
  rw [nackPdu, AmTxPdu.takeNack, hmem]
  rfl

/-- `group` are the NACKs for the PDU that have been taken just before, and `p` is the PDU before
these. -/
theorem nackPdu_took (htook : Nack.Took p group (s.pduOf n.nackSn)) (hmem : p.memBlock.isSome)
    (hpos : 0 < p.payloadSize) (hprev : prevNackSn = n.nackSn ↔ group ≠ []) (horder : n.soStart ≤ n.soEnd) :
    if n.Fits p group then
      ∃ t, s.nackPdu n.nackSn prevNackSn n.soStart n.soEnd = some (t, true) ∧
        Frame {n.nackSn % rlcAmWindowSize} [] s t ∧ Nack.Took p (n :: group) (t.pduOf n.nackSn)
    else s.nackPdu n.nackSn prevNackSn n.soStart n.soEnd = some (s, false) := by
  have hcases : if n.Fits p group then
      ∃ q increment size, (s.pduOf n.nackSn).takeNack (prevNackSn = n.nackSn) n.soStart n.soEnd =
        .accepted q increment size ∧ Nack.Took p (n :: group) q
      else (s.pduOf n.nackSn).takeNack (prevNackSn = n.nackSn) n.soStart n.soEnd = .refused := by
    cases group with
    | nil =>
      rw [htook.fresh rfl, decide_eq_false fun h ↦ hprev.mp h rfl]
      exact Nack.takeNack_first hmem hpos horder
    | cons last group =>
      rw [decide_eq_true (hprev.mpr (List.cons_ne_nil _ _))]
      exact Nack.takeNack_again htook hmem horder
  rw [pduOf] at hcases
  split_ifs at hcases ⊢ with hfits
  · obtain ⟨q, increment, size, htake, hq⟩ := hcases
    have hschedule := hq.schedule (List.cons_ne_nil n group) (prevNackSn = n.nackSn) increment size
    rw [nackPdu, htake]
    refine ⟨_, rfl, Frame.setPdu ⟨rfl, rfl, rfl, rfl, rfl, fun _ ↦ rfl, (List.append_nil _).symm,
      fun _ _ ↦ rfl⟩ ?_ (Set.mem_singleton _), ?_⟩
    · exact hschedule.sdusIndex_eq.trans htook.sdusIndex_eq.symm
    · rw [pduOf_setPdu]
      exact hschedule
  · rw [nackPdu, hcases]

end AmTransmitter

end EdgeSlice.Rlc
