import EdgeSlice.Rlc.AmNack
import EdgeSlice.Rlc.AmStatusFitting

namespace EdgeSlice.Rlc

namespace AmReceiver

variable {e : AmReceiver} {len : ℕ → ℕ} {sn : ℕ} {pdu : AmRxPdu} {pdus : List AmRxPdu} {n : Nack}

/-- The NACK is for bytes of which none is in the segments. -/
def Unreceived (pdus : List AmRxPdu) (n : Nack) : Prop := ∀ p ∈ pdus, ∀ b, n.Covers b → ¬p.Holds b

/-- A part behind a segment. -/
structure PartNack (len : ℕ → ℕ) (sn w : ℕ) (n : Nack) : Prop where
  sn_eq : n.nackSn = sn
  soStart_eq : n.soStart = w
  inPdu : n.InPdu (len sn)

/-- The part from `w` on, up to `soEnd`. -/
theorem partNack_ofPart {w : ℕ} {soEnd : ℤ} (hsn : sn < 1024) (hlen : len sn ≤ rlcAmStatusPduSoEndAllBytes)
    (hw : 0 < w) (hw' : w < len sn) (hle : w ≤ soEnd)
    (hend : soEnd = rlcAmStatusPduSoEndAllBytes ∨ soEnd < len sn) :
    PartNack len sn w (.ofPart sn w soEnd) := by
  rw [rlcAmStatusPduSoEndAllBytes] at hlen hend
  have hstart : (Nack.ofPart sn w soEnd).soStart = w := by
    have heq := Request.part_soStart sn w soEnd (by omega) (by omega)
    omega
  have hstop := Request.part_soEnd sn w soEnd (by omega) (by omega)
  refine ⟨Nat.mod_eq_of_lt hsn, hstart, .inr ⟨rfl, ?_, ?_, ?_, ?_⟩⟩
  · rintro ⟨hzero, -⟩
    omega
  · rw [hstart]
    exact hw'
  · omega
  · rw [rlcAmStatusPduSoEndAllBytes]
    omega

/-- Behind a hole all entries begin where the hole does. -/
theorem segmentRequests_stale {w : ℕ} (hsn : sn < 1024) (hlen : len sn ≤ rlcAmStatusPduSoEndAllBytes)
    (hsegments : e.Segments len sn (pdu :: pdus)) (hw : 0 < w)
    (hw' : (w : ℤ) < pdu.pduInfo.so + pdu.pduInfo.payloadSize) {q : Request}
    (hq : q ∈ segmentRequests sn pdus pdu.pduInfo.lsf w) : ∃ n, q.nack = some n ∧ PartNack len sn w n := by
  have hpos := (hsegments.stored pdu List.mem_cons_self).payloadSize_pos
  have hend := (hsegments.stored pdu List.mem_cons_self).end_le
  rw [hsegments.sn_eq pdu List.mem_cons_self] at hend
  induction pdus generalizing pdu with
  | nil =>
    cases hlsf : pdu.pduInfo.lsf with
    | true =>
      rw [hlsf] at hq
      cases hq
    | false =>
      rw [hlsf] at hq
      rw [List.mem_singleton.mp hq]
      refine ⟨_, rfl, partNack_ofPart hsn hlen hw (by omega) ?_ (.inl rfl)⟩
      rw [rlcAmStatusPduSoEndAllBytes] at hlen ⊢
      omega
  | cons p pdus ih =>
    have hle := hsegments.le_so (p := p) List.mem_cons_self
    have hstored := hsegments.stored p (List.mem_cons_of_mem _ List.mem_cons_self)
    have hend' := hstored.end_le
    rw [hsegments.sn_eq p (List.mem_cons_of_mem _ List.mem_cons_self)] at hend'
    have hpos' := hstored.payloadSize_pos
    cases hlsf : pdu.pduInfo.lsf with
    | true =>
      rw [hlsf] at hq
      cases hq
    | false =>
      rw [hlsf, segmentRequests, if_pos (by omega)] at hq
      rcases List.mem_cons.mp hq with rfl | hq
      · exact ⟨_, rfl, partNack_ofPart hsn hlen hw (by omega) (by omega) (.inr (by omega))⟩
      · exact ih hsegments.tail (by omega) hq hpos' hend'

/-- The entries behind a segment: all begin where the first one does, and the first one is for a hole. -/
structure Behind (e : AmReceiver) (len : ℕ → ℕ) (sn w : ℕ) (pdus : List AmRxPdu) (nacks : List Nack) : Prop where
  parts : ∀ n ∈ nacks, PartNack len sn w n
  first : ∀ n ∈ nacks.head?, Unreceived pdus n

/-- A part covers no byte before its start. -/
theorem PartNack.le_of_covers {w b : ℕ} (h : PartNack len sn w n) (hw : 0 < w) (hcovers : n.Covers b) : w ≤ b := by
  have hstart := h.soStart_eq
  rcases h.inPdu with ⟨-, hzero, -⟩ | ⟨he2, -⟩
  · omega
  · rcases hcovers with hwhole | ⟨hb, -⟩
    · rw [he2] at hwhole
      cases hwhole
    · omega

theorem Behind.nil (w : ℕ) (pdus : List AmRxPdu) : Behind e len sn w pdus [] :=
  ⟨List.forall_mem_nil _, fun n hn ↦ by cases hn⟩

/-- The entries behind a segment. -/
theorem segmentRequests_behind (hsn : sn < 1024) (hlen : len sn ≤ rlcAmStatusPduSoEndAllBytes)
    (hsegments : e.Segments len sn (pdu :: pdus)) (hrf : pdu.pduInfo.rf) :
    ∃ w : ℕ, 0 < w ∧ pdu.pduInfo.so + pdu.pduInfo.payloadSize ≤ w ∧
      Behind e len sn w (pdu :: pdus) ((segmentRequests sn pdus pdu.pduInfo.lsf
        (pdu.pduInfo.so + pdu.pduInfo.payloadSize)).filterMap Request.nack) := by
  induction pdus generalizing pdu with
  | nil =>
    have hstored := hsegments.stored pdu List.mem_cons_self
    have hpos := hstored.payloadSize_pos
    have hend := hstored.end_le
    rw [hsegments.sn_eq pdu List.mem_cons_self] at hend
    obtain ⟨w, hw⟩ : ∃ w : ℕ, pdu.pduInfo.so + pdu.pduInfo.payloadSize = w :=
      ⟨(pdu.pduInfo.so + pdu.pduInfo.payloadSize).toNat, by omega⟩
    rw [hw] at hend ⊢
    refine ⟨w, by omega, le_rfl, ?_⟩
    cases hlsf : pdu.pduInfo.lsf with
    | true => exact Behind.nil w _
    | false =>
      have hne : (w : ℤ) ≠ len sn := by
        intro heq
        have hall := (hstored.lsf_iff hrf).mpr (by rw [hw, heq, hsegments.sn_eq pdu List.mem_cons_self])
        rw [hlsf] at hall
        cases hall
      have hpart : PartNack len sn w (.ofPart sn w rlcAmStatusPduSoEndAllBytes) := by
        refine partNack_ofPart hsn hlen (by omega) (by omega) ?_ (.inl rfl)
        rw [rlcAmStatusPduSoEndAllBytes] at hlen ⊢
        omega
      refine ⟨List.forall_mem_singleton.mpr hpart, fun n hn p hp b hb hholds ↦ ?_⟩
      obtain rfl := Option.some.inj hn
      have hle := hpart.le_of_covers (by omega) hb
      rw [List.mem_singleton.mp hp, AmRxPdu.Holds] at hholds
      omega
  | cons p pdus ih =>
    have hle := hsegments.le_so (p := p) List.mem_cons_self
    have hstored := hsegments.stored pdu List.mem_cons_self
    have hpos := hstored.payloadSize_pos
    have hstored' := hsegments.stored p (List.mem_cons_of_mem _ List.mem_cons_self)
    have hpos' := hstored'.payloadSize_pos
    have hend := hstored'.end_le
    rw [hsegments.sn_eq p (List.mem_cons_of_mem _ List.mem_cons_self)] at hend
    have hrf' := hsegments.rf_of_behind (p := p) List.mem_cons_self
    rw [hsegments.lsf_eq_false hrf (by omega), segmentRequests]
    rcases hle.lt_or_eq with hhole | heq
    · -- the first hole
      obtain ⟨w, hw⟩ : ∃ w : ℕ, pdu.pduInfo.so + pdu.pduInfo.payloadSize = w :=
        ⟨(pdu.pduInfo.so + pdu.pduInfo.payloadSize).toNat, by omega⟩
      have hpart : PartNack len sn w (.ofPart sn w (p.pduInfo.so - 1)) :=
        partNack_ofPart hsn hlen (by omega) (by omega) (by omega) (.inr (by omega))
      have hnack : (Request.part sn w (p.pduInfo.so - 1)).nack = some (.ofPart sn w (p.pduInfo.so - 1)) := rfl
      rw [if_pos hhole, hw, List.filterMap_cons_some hnack]
      refine ⟨w, by omega, le_rfl, List.forall_mem_cons.mpr ⟨hpart, fun n hn ↦ ?_⟩, fun n hn q hq b hb hholds ↦ ?_⟩
      · obtain ⟨q, hq, hn⟩ := List.mem_filterMap.mp hn
        obtain ⟨m, hm, hpart⟩ := segmentRequests_stale hsn hlen hsegments.tail (by omega) (by omega) hq
        obtain rfl := Option.some.inj (hm.symm.trans hn)
        exact hpart
      · obtain rfl := Option.some.inj hn
        have hwb := hpart.le_of_covers (by omega) hb
        have hbend : (b : ℤ) < p.pduInfo.so := by
          rcases hb with hwhole | ⟨-, hb'⟩
          · cases hwhole
          · rw [rlcAmStatusPduSoEndAllBytes] at hlen hb'
            have hstop := Request.part_soEnd sn w (p.pduInfo.so - 1) (by omega) (by omega)
            omega
        rw [AmRxPdu.Holds] at hholds
        rcases List.mem_cons.mp hq with rfl | hq
        · omega
        rcases List.mem_cons.mp hq with rfl | hq
        · omega
        · have hle' := hsegments.tail.le_so hq
          omega
    · obtain ⟨w, hw, hpw, hbehind⟩ := ih hsegments.tail hrf'
      rw [heq, if_neg (lt_irrefl _)]
      refine ⟨w, hw, by omega, hbehind.parts, fun n hn q hq b hb hholds ↦ ?_⟩
      rcases List.mem_cons.mp hq with rfl | hq
      · have hle' := (hbehind.parts n (List.mem_of_mem_head? hn)).le_of_covers hw hb
        rw [AmRxPdu.Holds] at hholds
        omega
      · exact hbehind.first n hn q hq b hb hholds

/-- The entries for a PDU: at most one for its beginning, and those behind its first segment. -/
structure PduNacks (e : AmReceiver) (len : ℕ → ℕ) (sn : ℕ) (pdus : List AmRxPdu) (lead segments : List Nack)
    (w : ℕ) : Prop where
  one : lead.length ≤ 1
  leading : ∀ n ∈ lead, PartNack len sn 0 n ∧ Unreceived pdus n
  pos : 0 < w
  before : ∀ m ∈ lead, ∀ n ∈ segments, m.soEnd < w
  behind : Behind e len sn w pdus segments

/-- The entry for the beginning of a PDU. -/
theorem leadingRequests_nacks (hsn : sn < 1024) (hlen : len sn ≤ rlcAmStatusPduSoEndAllBytes)
    (hsegments : e.Segments len sn (pdu :: pdus)) :
    ((leadingRequests sn pdu.pduInfo.so).filterMap Request.nack).length ≤ 1 ∧
      ∀ n ∈ (leadingRequests sn pdu.pduInfo.so).filterMap Request.nack,
        PartNack len sn 0 n ∧ Unreceived (pdu :: pdus) n ∧ n.soEnd < pdu.pduInfo.so := by
  have hstored := hsegments.stored pdu List.mem_cons_self
  have hpos := hstored.payloadSize_pos
  have hend := hstored.end_le
  rw [hsegments.sn_eq pdu List.mem_cons_self] at hend
  rw [rlcAmStatusPduSoEndAllBytes] at hlen
  rw [leadingRequests]
  split_ifs with hso
  · have hnack : (Request.part sn 0 (pdu.pduInfo.so - 1)).nack = some (.ofPart sn 0 (pdu.pduInfo.so - 1)) := rfl
    have hstart := Request.part_soStart sn 0 (pdu.pduInfo.so - 1) (le_refl 0) (by decide)
    have hstop := Request.part_soEnd sn 0 (pdu.pduInfo.so - 1) (by omega) (by omega)
    rw [List.filterMap_cons_some hnack, List.filterMap_nil]
    refine ⟨le_rfl, List.forall_mem_singleton.mpr ⟨⟨Nat.mod_eq_of_lt hsn, by omega, .inr ⟨rfl, ?_, ?_, ?_, ?_⟩⟩, ?_, ?_⟩⟩
    · rintro ⟨-, hwhole⟩
      rw [rlcAmStatusPduSoEndAllBytes] at hwhole
      omega
    · omega
    · omega
    · exact .inr (by omega)
    · intro p hp b hb hholds
      have hbend : (b : ℤ) < pdu.pduInfo.so := by
        rcases hb with hwhole | ⟨-, hb'⟩
        · cases hwhole
        · rw [rlcAmStatusPduSoEndAllBytes] at hb'
          omega
      rw [AmRxPdu.Holds] at hholds
      rcases List.mem_cons.mp hp with rfl | hp
      · omega
      · have hle := hsegments.le_so hp
        omega
    · omega
  · exact ⟨Nat.zero_le _, List.forall_mem_nil _⟩

/-- The entries for a PDU. -/
theorem pduRequests_nacks (hsn : sn < 1024) (hlen : len sn ≤ rlcAmStatusPduSoEndAllBytes)
    (hsegments : e.Segments len sn pdus) : ∃ lead segments w,
      (pduRequests sn pdus).filterMap Request.nack = lead ++ segments ∧ PduNacks e len sn pdus lead segments w := by
  cases pdus with
  | nil =>
    refine ⟨[.ofPdu sn], [], 1, rfl, le_rfl, List.forall_mem_singleton.mpr ⟨⟨Nat.mod_eq_of_lt hsn, rfl, ?_⟩, ?_⟩,
      Nat.one_pos, fun _ _ n hn ↦ (by cases hn), Behind.nil _ _⟩
    · exact .inl ⟨rfl, rfl, rfl⟩
    · exact fun p hp ↦ by cases hp
  | cons pdu pdus =>
    cases hall : pdu.allSegmentsReceived with
    | true =>
      rw [pduRequests, hall, if_pos rfl]
      exact ⟨[], [], 1, rfl, Nat.zero_le _, List.forall_mem_nil _, Nat.one_pos, fun m hm ↦ (by cases hm),
        Behind.nil _ _⟩
    | false =>
      have hpos := (hsegments.stored pdu List.mem_cons_self).payloadSize_pos
      obtain ⟨hone, hlead⟩ := leadingRequests_nacks hsn hlen hsegments
      obtain ⟨w, hw, hpw, hbehind⟩ := segmentRequests_behind hsn hlen hsegments (hsegments.rf hall)
      refine ⟨_, _, w, ?_, hone, fun n hn ↦ ⟨(hlead n hn).1, (hlead n hn).2.1⟩, hw, fun m hm n _ ↦ ?_, hbehind⟩
      · rw [pduRequests, hall, if_neg Bool.false_ne_true, List.filterMap_cons_none rfl, List.filterMap_append]
      · have hlt := (hlead m hm).2.2
        omega

/-- The NACKs of everything that is missing. -/
def missingNacks (e : AmReceiver) : List Nack := e.missingRequests.filterMap Request.nack

theorem fittingNacks_isPrefix (e : AmReceiver) : e.fittingNacks <+: e.missingNacks :=
  (Budget.fitting_isPrefix _ _).filterMap _

/-- The NACKs for the PDU that is `k` after VR(R). -/
def nacksAt (e : AmReceiver) (k : ℕ) : List Nack :=
  (pduRequests (snAt e.vrR k) (e.receiverBuffer.filter fun p ↦ p.pduInfo.sn = snAt e.vrR k)).filterMap Request.nack

theorem missingNacks_eq (e : AmReceiver) :
    e.missingNacks = (List.range' 0 (e.reach 0 e.receiverBuffer)).flatMap e.nacksAt :=
  List.filterMap_flatMap

/-- Two NACKs of a report, where a PDU has at most one hole between its segments. -/
def Follows (e : AmReceiver) (m n : Nack) : Prop :=
  e.offset m.nackSn < e.offset n.nackSn ∨ m.nackSn = n.nackSn ∧
    (m.soStart = 0 ∧ m.soEnd < n.soStart ∨ 0 < m.soStart ∧ m.soStart = n.soStart)

theorem Consistent.nacksAt_eq (he : e.Consistent len) (k : ℕ) : ∃ lead segments w,
    e.nacksAt k = lead ++ segments ∧ PduNacks e len (snAt e.vrR k)
      (e.receiverBuffer.filter fun p ↦ p.pduInfo.sn = snAt e.vrR k) lead segments w :=
  pduRequests_nacks (snAt_lt _ _) (he.len_le _) (he.segments _)

theorem Consistent.of_mem_nacksAt (he : e.Consistent len) {k : ℕ} (hn : n ∈ e.nacksAt k) :
    n.nackSn = snAt e.vrR k ∧ n.InPdu (len n.nackSn) := by
  obtain ⟨lead, segments, w, heq, hnacks⟩ := he.nacksAt_eq k
  rw [heq] at hn
  rcases List.mem_append.mp hn with hn | hn
  · have hpart := (hnacks.leading n hn).1
    exact ⟨hpart.sn_eq, hpart.sn_eq ▸ hpart.inPdu⟩
  · have hpart := hnacks.behind.parts n hn
    exact ⟨hpart.sn_eq, hpart.sn_eq ▸ hpart.inPdu⟩

theorem Consistent.nacksAt_pairwise (he : e.Consistent len) (k : ℕ) : (e.nacksAt k).Pairwise e.Follows := by
  obtain ⟨lead, segments, w, heq, hnacks⟩ := he.nacksAt_eq k
  have hpos := hnacks.pos
  rw [heq]
  refine List.pairwise_append.mpr ⟨?_, ?_, fun m hm n hn ↦ ?_⟩
  · have hone := hnacks.one
    cases lead with
    | nil => exact List.Pairwise.nil
    | cons m lead =>
      rw [List.length_cons] at hone
      rw [List.length_eq_zero_iff.mp (show lead.length = 0 by omega)]
      exact List.pairwise_singleton _ _
  · refine List.pairwise_of_forall_mem_list fun m hm n hn ↦ .inr ?_
    have hm := hnacks.behind.parts m hm
    have hn := hnacks.behind.parts n hn
    refine ⟨hm.sn_eq.trans hn.sn_eq.symm, .inr ⟨?_, hm.soStart_eq.trans hn.soStart_eq.symm⟩⟩
    rw [hm.soStart_eq]
    exact hpos
  · have hbefore := hnacks.before m hm n hn
    have hm := (hnacks.leading m hm).1
    have hn := hnacks.behind.parts n hn
    refine .inr ⟨hm.sn_eq.trans hn.sn_eq.symm, .inl ⟨hm.soStart_eq, ?_⟩⟩
    rw [hn.soStart_eq]
    exact hbefore

theorem Consistent.missingNacks_pairwise (he : e.Consistent len) : e.missingNacks.Pairwise e.Follows := by
  have hreach := e.reach_lt
  rw [missingNacks_eq]
  refine List.pairwise_flatMap.mpr ⟨fun k _ ↦ he.nacksAt_pairwise k, ?_⟩
  refine List.Pairwise.imp_of_mem (fun {j k} hj hk hlt m hm n hn ↦ .inl ?_) List.pairwise_lt_range'
  obtain ⟨-, hj⟩ := List.mem_range'_1.mp hj
  obtain ⟨-, hk⟩ := List.mem_range'_1.mp hk
  rw [(he.of_mem_nacksAt hm).1, (he.of_mem_nacksAt hn).1, offset, amDiffSn_snAt he.vrR_lt (by omega), offset,
    amDiffSn_snAt he.vrR_lt (by omega)]
  exact hlt

theorem exists_of_flatMap_eq {α β : Type*} {f : α → List β} {as : List α} {pre post : List β} {b : β}
    (h : as.flatMap f = pre ++ b :: post) :
    ∃ a ∈ as, ∃ pre' post', f a = pre' ++ b :: post' ∧ pre' ⊆ pre := by
  induction as generalizing pre with
  | nil => simp at h
  | cons a as ih =>
    rw [List.flatMap_cons] at h
    rcases List.append_eq_append_iff.mp h with ⟨rest, rfl, hrest⟩ | ⟨rest, hfirst, hrest⟩
    · obtain ⟨a', ha', pre', post', heq, hsub⟩ := ih hrest
      exact ⟨a', List.mem_cons_of_mem _ ha', pre', post', heq, List.subset_append_of_subset_right _ hsub⟩
    · cases rest with
      | nil =>
        have hrest : as.flatMap f = [] ++ b :: post := hrest.symm
        obtain ⟨a', ha', pre', post', heq, hsub⟩ := ih hrest
        exact ⟨a', List.mem_cons_of_mem _ ha', pre', post', heq, List.Subset.trans hsub (List.nil_subset _)⟩
      | cons b' rest =>
        obtain ⟨rfl, -⟩ := List.cons_eq_cons.mp hrest
        exact ⟨a, List.mem_cons_self, pre, rest, hfirst, List.Subset.refl _⟩

/-- The first entry behind the beginning of a PDU is only for missing bytes. -/
theorem Consistent.unreceived (he : e.Consistent len) {pre post : List Nack} (h : e.fittingNacks = pre ++ n :: post)
    (hfirst : ∀ m ∈ pre, m.nackSn = n.nackSn → m.soStart = 0) {b : ℕ} (hb : n.Covers b) :
    ¬e.Has n.nackSn b := by
  obtain ⟨rest, hrest⟩ := e.fittingNacks_isPrefix
  rw [h, List.append_assoc, List.cons_append, missingNacks_eq] at hrest
  obtain ⟨k, -, pre', post', heq, hsub⟩ := exists_of_flatMap_eq hrest.symm
  have hsn : n.nackSn = snAt e.vrR k := by
    refine (he.of_mem_nacksAt (k := k) ?_).1
    rw [heq]
    exact List.mem_append_right _ List.mem_cons_self
  obtain ⟨lead, segments, w, hsplit, hnacks⟩ := he.nacksAt_eq k
  have hdone (hno : Unreceived (e.receiverBuffer.filter fun p ↦ p.pduInfo.sn = snAt e.vrR k) n) :
      ¬e.Has n.nackSn b := by
    rintro ⟨p, hp, hpsn, hholds⟩
    exact hno p (List.mem_filter.mpr ⟨hp, decide_eq_true (hpsn.trans hsn)⟩) b hb hholds
  by_cases hlead : n ∈ lead
  · exact hdone (hnacks.leading n hlead).2
  rw [hsplit] at heq
  cases segments with
  | nil =>
    rw [List.append_nil] at heq
    rw [heq] at hlead
    exact absurd (List.mem_append_right _ List.mem_cons_self) hlead
  | cons m segments =>
    by_cases hhead : n = m
    · exact hdone (hnacks.behind.first n (by rw [hhead]; rfl))
    · -- the entry before begins where this one does, and not at the beginning of the PDU
      have hm : m ∈ pre' := by
        have hassoc : (lead ++ [m]) ++ segments = pre' ++ n :: post' := by
          rw [← heq, List.append_assoc, List.singleton_append]
        rcases List.append_eq_append_iff.mp hassoc with ⟨bs, rfl, -⟩ | ⟨bs, hbs, hrest⟩
        · exact List.mem_append_left _ (List.mem_append_right _ List.mem_cons_self)
        · cases bs with
          | nil =>
            rw [List.append_nil] at hbs
            rw [← hbs]
            exact List.mem_append_right _ List.mem_cons_self
          | cons n' bs =>
            obtain ⟨rfl, -⟩ := List.cons_eq_cons.mp hrest
            have hmem : n ∈ lead ++ [m] := by
              rw [hbs]
              exact List.mem_append_right _ List.mem_cons_self
            rcases List.mem_append.mp hmem with hmem | hmem
            · exact absurd hmem hlead
            · exact absurd (List.mem_singleton.mp hmem) hhead
      have hpart := hnacks.behind.parts m List.mem_cons_self
      have hzero := hfirst m (hsub hm) (hpart.sn_eq.trans hsn.symm)
      have hpos := hnacks.pos
      rw [hpart.soStart_eq] at hzero
      omega

/-- The NACKs are not behind ACK_SN. -/
theorem Consistent.offset_le_ackSn (he : e.Consistent len) (hn : n ∈ e.fittingNacks) :
    (∃ k, k < e.reach 0 e.receiverBuffer ∧ n ∈ e.nacksAt k) ∧ e.offset n.nackSn ≤ e.offset e.fittingAckSn := by
  have hreach := e.reach_lt
  obtain ⟨q, hq, hnack⟩ := List.mem_filterMap.mp hn
  obtain ⟨k, hk, hqk⟩ := exists_of_mem_missingRequests ((Budget.fitting_isPrefix _ _).subset hq)
  have hmem : n ∈ e.nacksAt k := List.mem_filterMap.mpr ⟨q, hqk, hnack⟩
  have hsn : n.nackSn = q.sn := (he.of_mem_nacksAt hmem).1.trans (sn_of_mem_pduRequests hqk).symm
  refine ⟨⟨k, hk, hmem⟩, ?_⟩
  rw [fittingAckSn]
  cases hunmet : Budget.unmet Request.bits Request.used e.nackRoom e.missingRequests with
  | none =>
    rw [Option.map_none, Option.getD_none, (he.of_mem_nacksAt hmem).1, offset, offset,
      amDiffSn_snAt he.vrR_lt (by omega), amDiffSn_snAt he.vrR_lt hreach]
    exact hk.le
  | some u =>
    obtain ⟨rest, hrest⟩ := Budget.eq_append_of_unmet hunmet
    have hsorted := missingRequests_sorted he.vrR_lt
    rw [hrest] at hsorted
    rw [Option.map_some, Option.getD_some, hsn]
    exact (List.pairwise_append.mp hsorted).2.2 q hq u List.mem_cons_self

end AmReceiver

end EdgeSlice.Rlc
