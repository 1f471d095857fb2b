import EdgeSlice.Rlc.AmStatusOrder
import EdgeSlice.Rlc.AmStatusSound
import EdgeSlice.Rlc.AmVtASafety
import Mathlib.Data.List.TakeWhile

namespace EdgeSlice.Rlc.AmTransmitter

variable {s t u : AmTransmitter} {before nacks : List Nack} {n : Nack} {ackSn c prevNackSn : ℕ}

/-- `rlc_am_nack_pdu` for the NACKs of a report, one after the other. -/
def nackAll : ℕ → List Nack → AmTransmitter → Option (AmTransmitter × Bool)
  | _, [], s => some (s, true)
  | prevNackSn, n :: nacks, s => do
    let (s, status) ← s.nackPdu n.nackSn prevNackSn n.soStart n.soEnd
    if status then nackAll n.nackSn nacks s else some (s, false)

/-- Each NACK of a report can be served, after those before it. -/
def AllFit (s : AmTransmitter) : List Nack → List Nack → Prop
  | _, [] => True
  | before, n :: nacks =>
    n.Fits (s.pduOf n.nackSn) (before.takeWhile fun m ↦ m.nackSn = n.nackSn) ∧ s.AllFit (n :: before) nacks

/-- The NACKs of a report, in their order and for stored PDUs. -/
structure Served (s : AmTransmitter) (nacks : List Nack) : Prop where
  sorted : nacks.Pairwise fun m n ↦ s.offset m.nackSn ≤ s.offset n.nackSn
  offset_lt : ∀ n ∈ nacks, s.offset n.nackSn < 512
  stored : ∀ n ∈ nacks, (s.pduOf n.nackSn).memBlock.isSome
  forward : ∀ n ∈ nacks, n.soStart ≤ n.soEnd

theorem Served.tail (h : s.Served (n :: nacks)) : s.Served nacks where
  sorted := (List.pairwise_cons.mp h.sorted).2
  offset_lt m hm := h.offset_lt m (List.mem_cons_of_mem _ hm)
  stored m hm := h.stored m (List.mem_cons_of_mem _ hm)
  forward m hm := h.forward m (List.mem_cons_of_mem _ hm)

/-- What the NACKs before have made of the PDU of the next one. -/
theorem Reached.next (hvtA : s.vtA < 1024) (hreached : Reached s before c t) (hle : c ≤ s.offset n.nackSn)
    (hlt : s.offset n.nackSn < 512) (hhead : ∀ m ∈ before.head?, s.offset m.nackSn = c) :
    Reached s before (s.offset n.nackSn) t := by
  have hn := snAt_offset hvtA n.sn_lt
  rcases hle.eq_or_lt with heq | hc
  · rwa [← heq]
  · refine ⟨fun d hd ↦ hreached.later d (hc.trans hd), ?_⟩
    have hnil : (before.takeWhile fun m ↦ m.nackSn = snAt s.vtA (s.offset n.nackSn)) = [] := by
      cases before with
      | nil => rfl
      | cons m before =>
        refine List.takeWhile_cons_of_neg fun heq ↦ ?_
        have hm := hhead m rfl
        rw [of_decide_eq_true heq, hn] at hm
        omega
    rw [hnil, hreached.later _ hc hlt]
    exact Nack.Took.nil _

/-- `rlc_am_nack_pdu` returns TRUE for each NACK if and only if all can be served. -/
theorem nackAll_iff (hs : s.Valid) (hserved : s.Served nacks) (hreached : Reached s before c t)
    (hhead : ∀ m ∈ before.head?, s.offset m.nackSn = c ∧ prevNackSn = m.nackSn)
    (hnone : before = [] → 1024 ≤ prevNackSn) (hle : ∀ n ∈ nacks, c ≤ s.offset n.nackSn) :
    (∃ u, t.nackAll prevNackSn nacks = some (u, true)) ↔ s.AllFit before nacks := by
  induction nacks generalizing before c prevNackSn t with
  | nil => exact iff_of_true ⟨t, rfl⟩ trivial
  | cons n nacks ih =>
    have hlt := hserved.offset_lt n List.mem_cons_self
    have hmem := hserved.stored n List.mem_cons_self
    have hn := snAt_offset hs.vtA_lt n.sn_lt
    have hnext := hreached.next hs.vtA_lt (hle n List.mem_cons_self) hlt fun m hm ↦ (hhead m hm).1
    have hhere := hnext.here
    rw [hn] at hhere
    have hprev : prevNackSn = n.nackSn ↔ (before.takeWhile fun m ↦ m.nackSn = n.nackSn) ≠ [] := by
      cases before with
      | nil =>
        refine iff_of_false ?_ fun h ↦ h rfl
        have hbig := hnone rfl
        have hsmall := n.sn_lt
        omega
      | cons m before =>
        obtain ⟨-, rfl⟩ := hhead m rfl
        by_cases hsame : m.nackSn = n.nackSn
        · rw [List.takeWhile_cons_of_pos (by simpa using hsame)]
          exact iff_of_true hsame (List.cons_ne_nil _ _)
        · rw [List.takeWhile_cons_of_neg (by simpa using hsame)]
          exact iff_of_false hsame fun h ↦ h rfl
    have htook := nackPdu_took hhere hmem (hs.payloadSize_pos _ hmem) hprev (hserved.forward n List.mem_cons_self)
    rw [nackAll, AllFit]
    by_cases hfits : n.Fits (s.pduOf n.nackSn) (before.takeWhile fun m ↦ m.nackSn = n.nackSn)
    · rw [if_pos hfits] at htook
      obtain ⟨u, hu, hframe, htook'⟩ := htook
      have hreached' : Reached s (n :: before) (s.offset n.nackSn) u := by
        refine ⟨fun d hcd hd ↦ ?_, ?_⟩
        · have hslot := slot_ne s.vtA hcd (by omega)
          rw [hn] at hslot
          rw [hframe.pduOf_eq fun hmem ↦ hslot (Set.mem_singleton_iff.mp hmem).symm]
          exact hnext.later d hcd hd
        · rw [hn, List.takeWhile_cons_of_pos (by simp)]
          exact htook'
      have hlast (m : Nack) (hm : m ∈ (n :: before).head?) :
          s.offset m.nackSn = s.offset n.nackSn ∧ n.nackSn = m.nackSn := by
        obtain rfl := Option.some.inj hm
        exact ⟨rfl, rfl⟩
      have hrest := ih hserved.tail hreached' hlast (fun h ↦ by cases h) (List.pairwise_cons.mp hserved.sorted).1
      rw [hu, Option.bind_eq_bind, Option.bind_some]
      simp only [hfits, true_and, if_true]
      exact hrest
    · rw [if_neg hfits] at htook
      rw [htook, Option.bind_eq_bind, Option.bind_some]
      refine iff_of_false ?_ fun h ↦ hfits h.1
      rintro ⟨u, hu⟩
      simp only [Bool.false_eq_true, if_false] at hu
      cases hu

/-- A report that can be served is looked at up to ACK_SN. -/
theorem scan_of_allFit (hsorted : nacks.Pairwise fun m n ↦ s.offset m.nackSn ≤ s.offset n.nackSn)
    (hhead : ∀ m ∈ before.head?, ∀ n ∈ nacks, s.offset m.nackSn ≤ s.offset n.nackSn)
    (hfit : s.AllFit before nacks) :
    s.scan ackSn before nacks = (nacks.takeWhile fun n ↦ s.offset n.nackSn < s.offset ackSn, s.offset ackSn) := by
  induction nacks generalizing before with
  | nil => rfl
  | cons n nacks ih =>
    obtain ⟨hn, hnacks⟩ := List.pairwise_cons.mp hsorted
    obtain ⟨hfits, hrest⟩ := hfit
    rw [scan]
    by_cases hlt : s.offset n.nackSn < s.offset ackSn
    · have hlast (m : Nack) (hm : m ∈ (n :: before).head?) :
          ∀ k ∈ nacks, s.offset m.nackSn ≤ s.offset k.nackSn := by
        rw [← Option.some.inj hm]
        exact hn
      have hnext := ih hnacks hlast hrest
      rw [if_pos ⟨fun m hm ↦ hhead m hm n List.mem_cons_self, hlt⟩, if_pos hfits, hnext,
        List.takeWhile_cons_of_pos (by simpa using hlt)]
    · rw [if_neg fun h ↦ hlt h.2, List.takeWhile_cons_of_neg (by simpa using hlt)]

/-- `n` may come after `m`. -/
def Continued (m n : Nack) : Prop := m.nackSn = n.nackSn → m.soStart = 0 ∧ m.soEnd < n.soStart

/-- Before a NACK there is at most one for the same PDU. -/
theorem group_of_continued (hbefore : before.Pairwise fun n m ↦ Continued m n)
    (hn : ∀ m ∈ before, Continued m n) :
    (before.takeWhile fun m ↦ m.nackSn = n.nackSn) = [] ∨ ∃ m,
      (before.takeWhile fun m ↦ m.nackSn = n.nackSn) = [m] ∧ m.soStart = 0 ∧ m.soEnd < n.soStart := by
  have hsn (m : Nack) (hm : m ∈ before.takeWhile fun m ↦ m.nackSn = n.nackSn) : m.nackSn = n.nackSn :=
    of_decide_eq_true (List.mem_takeWhile_imp (p := fun m : Nack ↦ decide (m.nackSn = n.nackSn)) hm)
  have hsub : (before.takeWhile fun m ↦ m.nackSn = n.nackSn).Sublist before := List.takeWhile_sublist _
  cases hgroup : before.takeWhile fun m ↦ m.nackSn = n.nackSn with
  | nil => exact .inl rfl
  | cons m group =>
    rw [hgroup] at hsn hsub
    have hm := hn m (hsub.subset List.mem_cons_self) (hsn m List.mem_cons_self)
    refine .inr ⟨m, ?_, hm⟩
    cases group with
    | nil => rfl
    | cons k group =>
      have hkm := (List.pairwise_cons.mp (hbefore.sublist hsub)).1 k List.mem_cons_self
        ((hsn k (List.mem_cons_of_mem _ List.mem_cons_self)).trans (hsn m List.mem_cons_self).symm)
      have hzero := hm.1
      omega

/-- Which reports can be served. -/
theorem allFit_iff (hbefore : before.Pairwise fun n m ↦ Continued m n) (hnacks : nacks.Pairwise Continued)
    (hcross : ∀ m ∈ before, ∀ n ∈ nacks, Continued m n)
    (hstored : ∀ n ∈ nacks, (s.pduOf n.nackSn).memBlock.isSome)
    (hin : ∀ n ∈ nacks, n.InPdu (s.pduOf n.nackSn).payloadSize) :
    s.AllFit before nacks ↔
      ∀ n ∈ nacks, ¬(s.pduOf n.nackSn).maxRetransmit ∧ (n.WholePdu → ¬(s.pduOf n.nackSn).ack) := by
  induction nacks generalizing before with
  | nil => exact iff_of_true trivial (List.forall_mem_nil _)
  | cons n nacks ih =>
    obtain ⟨hfirst, hnacks⟩ := List.pairwise_cons.mp hnacks
    have hn (m : Nack) (hm : m ∈ before) : Continued m n := hcross m hm n List.mem_cons_self
    have hrest := ih (List.pairwise_cons.mpr ⟨hn, hbefore⟩) hnacks
      (fun m hm k hk ↦ by
        rcases List.mem_cons.mp hm with rfl | hm
        · exact hfirst k hk
        · exact hcross m hm k (List.mem_cons_of_mem _ hk))
      (fun k hk ↦ hstored k (List.mem_cons_of_mem _ hk)) (fun k hk ↦ hin k (List.mem_cons_of_mem _ hk))
    rw [AllFit, List.forall_mem_cons, hrest]
    refine and_congr_left fun _ ↦ ?_
    have hmem := hstored n List.mem_cons_self
    have hinPdu := hin n List.mem_cons_self
    have hpart (hno : ¬n.WholePdu) : n.PartOf (s.pduOf n.nackSn) := by
      rcases hinPdu with ⟨-, hwhole⟩ | ⟨-, -, hlt, hle, hend⟩
      · exact absurd hwhole hno
      · refine ⟨hno, ?_⟩
        rw [Nack.soStop]
        split_ifs with hall
        · omega
        · omega
    rcases group_of_continued hbefore hn with hgroup | ⟨m, hgroup, hzero, hlt⟩
    · rw [hgroup]
      by_cases hwhole : n.WholePdu
      · refine ⟨fun h ↦ ⟨h.2.1, fun _ ↦ ?_⟩, fun h ↦ ⟨hmem, h.1, .inl ⟨hwhole, h.2 hwhole⟩⟩⟩
        rcases h.2.2 with hfirst | hpartOf
        · exact hfirst.2
        · exact absurd hwhole hpartOf.1
      · exact ⟨fun h ↦ ⟨h.2.1, fun h ↦ absurd h hwhole⟩, fun h ↦ ⟨hmem, h.1, .inr (hpart hwhole)⟩⟩
    · have hno : ¬n.WholePdu := fun h ↦ by
        have hstart := h.1
        omega
      have hstartLt := n.soStart_lt
      have hm : m.soEnd ≠ rlcAmStatusPduSoEndAllBytes := by
        rw [rlcAmStatusPduSoEndAllBytes]
        omega
      have hone : [m].length < rlcAmMaxHolesReportPerPdu := show 1 < 16 by decide
      rw [hgroup]
      refine ⟨fun h ↦ ⟨h.2.1, fun h ↦ absurd h hno⟩, fun h ↦ ⟨hmem, h.1, hpart hno, fun h ↦ hm h.2, ?_, hone⟩⟩
      rw [Nack.soStop, if_neg hm]
      exact hlt

end EdgeSlice.Rlc.AmTransmitter

namespace EdgeSlice.Rlc.AmReceiver

open AmTransmitter

variable {e : AmReceiver} {s : AmTransmitter} {len : ℕ → ℕ} {sn : ℕ} {m n : Nack} {nacks : List Nack}

/-- The transmitter that the receiver has got its PDUs from, with VT(A) before VR(R). -/
structure Peer (len : ℕ → ℕ) (e : AmReceiver) (s : AmTransmitter) : Prop where
  valid : s.Valid
  vrR_le : s.offset e.vrR ≤ s.offset e.vrMs
  vrMs_le : s.offset e.vrMs ≤ s.offset s.vtS
  transmitted : ∀ n ∈ e.fittingNacks,
    (s.pduOf n.nackSn).memBlock.isSome ∧ (s.pduOf n.nackSn).payloadSize = len n.nackSn

/-- The STATUS PDU has its NACKs in order, disjoint and for missing bytes only, and the peer serves
each of them and moves VT(A). -/
def AcceptedStatus (e : AmReceiver) (s : AmTransmitter) : Prop :=
  ∃ e' info, e.sendStatusPdu = some (e', info) ∧
    (info.nackList.Pairwise fun m n ↦ e.offset m.nackSn < e.offset n.nackSn ∨
      m.nackSn = n.nackSn ∧ m.soStart < n.soStart) ∧
    (info.nackList.Pairwise fun m n ↦ m.nackSn = n.nackSn → ∀ b, m.Covers b → ¬n.Covers b) ∧
    (∀ n ∈ info.nackList, ∀ b, n.Covers b → ¬e.Has n.nackSn b) ∧
    (∃ t, s.nackAll 0x3FFF info.nackList = some (t, true)) ∧
    ∃ t, s.receiveProcessControlPdu (some info) = some t ∧ t.vtA = nextSn info.ackSn info.nackList

/-- When a report is accepted. -/
structure Servable (e : AmReceiver) (s : AmTransmitter) : Prop where
  few : e.fittingNacks.length < rlcAmMaxNackInStatusPdu
  /-- A part that is not the beginning of its PDU is the last one of it. -/
  oneHole : e.fittingNacks.Pairwise fun m n ↦ m.nackSn = n.nackSn → m.soStart = 0
  retransmittable : ∀ n ∈ e.fittingNacks,
    ¬(s.pduOf n.nackSn).maxRetransmit ∧ (n.WholePdu → ¬(s.pduOf n.nackSn).ack)
  released : ∀ d < s.offset e.fittingAckSn,
    snAt s.vtA d ∉ e.fittingNacks.map Nack.nackSn → ¬(s.pduOf (snAt s.vtA d)).Stuck

theorem Peer.offset_add (hpeer : Peer len e s) (he : e.Consistent len) (hsn : sn < 1024)
    (hle : e.offset sn ≤ e.offset e.vrMs) : s.offset sn = s.offset e.vrR + e.offset sn := by
  have hvtA := hpeer.valid.vtA_lt
  have hvrR := he.vrR_lt
  have hvrMs := he.vrMs_lt
  have hbefore := hpeer.vrR_le
  simp only [AmTransmitter.offset, AmReceiver.offset, amDiffSn_eq] at hle hbefore ⊢
  omega

theorem Consistent.ackSn_le (he : e.Consistent len) : e.offset e.fittingAckSn ≤ e.offset e.vrMs := by
  have hreach := reach_le (Nat.zero_le (e.offset e.vrMs)) e.receiverBuffer
  have hlt := e.reach_lt
  rw [fittingAckSn]
  cases hunmet : Budget.unmet Request.bits Request.used e.nackRoom e.missingRequests with
  | none =>
    rw [Option.map_none, Option.getD_none]
    have hoffset : e.offset (snAt e.vrR (e.reach 0 e.receiverBuffer)) = e.reach 0 e.receiverBuffer :=
      amDiffSn_snAt he.vrR_lt hlt
    omega
  | some q =>
    obtain ⟨rest, hrest⟩ := Budget.eq_append_of_unmet hunmet
    have hq : q ∈ e.missingRequests := by
      rw [hrest]
      exact List.mem_append_right _ List.mem_cons_self
    obtain ⟨k, hk, hq⟩ := exists_of_mem_missingRequests hq
    have hoffset : e.offset (snAt e.vrR k) = k := amDiffSn_snAt he.vrR_lt (by omega)
    rw [Option.map_some, Option.getD_some, sn_of_mem_pduRequests hq]
    omega

/-- What the peer can rely on. -/
theorem Peer.served (hpeer : Peer len e s) (he : e.Consistent len) : s.Served e.fittingNacks := by
  have hle (n : Nack) (hn : n ∈ e.fittingNacks) : s.offset n.nackSn = s.offset e.vrR + e.offset n.nackSn :=
    hpeer.offset_add he n.sn_lt ((he.offset_le_ackSn hn).2.trans he.ackSn_le)
  have hMs := hpeer.offset_add he he.vrMs_lt le_rfl
  have hwindow := hpeer.vrMs_le.trans hpeer.valid.vtS_le
  rw [rlcAmWindowSize] at hwindow
  refine ⟨?_, fun n hn ↦ ?_, fun n hn ↦ (hpeer.transmitted n hn).1, fun n hn ↦ ?_⟩
  · refine (he.missingNacks_pairwise.sublist e.fittingNacks_isPrefix.sublist).imp_of_mem fun {m n} hm hn hfollows ↦ ?_
    rw [hle m hm, hle n hn]
    rcases hfollows with hlt | ⟨hsame, -⟩
    · omega
    · rw [hsame]
  · obtain ⟨⟨k, hk, hnk⟩, -⟩ := he.offset_le_ackSn hn
    have hreach := reach_le (Nat.zero_le (e.offset e.vrMs)) e.receiverBuffer
    have hoffset : e.offset n.nackSn = k := by
      rw [(he.of_mem_nacksAt hnk).1]
      exact amDiffSn_snAt he.vrR_lt (by have := e.reach_lt; omega)
    rw [hle n hn]
    omega
  · obtain ⟨⟨k, -, hnk⟩, -⟩ := he.offset_le_ackSn hn
    rcases (he.of_mem_nacksAt hnk).2 with ⟨-, hwhole⟩ | ⟨-, -, -, hforward, -⟩
    · rw [hwhole.1]
      exact Nat.zero_le _
    · exact hforward

/-- The NACKs as they are sent. -/
def sentNacks (e : AmReceiver) : List Nack := Nack.clearLastE1 e.fittingNacks

theorem map_sentNacks (e : AmReceiver) : e.sentNacks.map (fun n ↦ { n with e1 := true }) = e.fittingNacks :=
  e.map_sent

theorem pairwise_sentNacks {R : Nack → Nack → Prop} :
    (e.sentNacks.Pairwise fun m n ↦ R { m with e1 := true } { n with e1 := true }) ↔ e.fittingNacks.Pairwise R := by
  rw [← map_sentNacks, List.pairwise_map]

theorem forall_mem_sentNacks {P : Nack → Prop} :
    (∀ n ∈ e.sentNacks, P { n with e1 := true }) ↔ ∀ n ∈ e.fittingNacks, P n := by
  rw [← map_sentNacks, List.forall_mem_map]

theorem length_sentNacks (e : AmReceiver) : e.sentNacks.length = e.fittingNacks.length := by
  rw [← map_sentNacks, List.length_map]

theorem map_nackSn_sentNacks (e : AmReceiver) : e.sentNacks.map Nack.nackSn = e.fittingNacks.map Nack.nackSn := by
  rw [← map_sentNacks, List.map_map]
  rfl

theorem served_sentNacks (h : s.Served e.fittingNacks) : s.Served e.sentNacks where
  sorted := pairwise_sentNacks (R := fun m n ↦ s.offset m.nackSn ≤ s.offset n.nackSn).mpr h.sorted
  offset_lt := (forall_mem_sentNacks (P := fun n ↦ s.offset n.nackSn < 512)).mpr h.offset_lt
  stored := (forall_mem_sentNacks (P := fun n ↦ (s.pduOf n.nackSn).memBlock.isSome)).mpr h.stored
  forward := (forall_mem_sentNacks (P := fun n ↦ n.soStart ≤ n.soEnd)).mpr h.forward

/-- With one hole in each PDU, the NACKs for a PDU follow one another. -/
theorem Consistent.continued (he : e.Consistent len)
    (hone : e.fittingNacks.Pairwise fun m n ↦ m.nackSn = n.nackSn → m.soStart = 0) :
    e.fittingNacks.Pairwise Continued := by
  refine ((he.missingNacks_pairwise.sublist e.fittingNacks_isPrefix.sublist).and hone).imp fun {m n} h hsame ↦ ?_
  have hzero := h.2 hsame
  rcases h.1 with hlt | ⟨-, ⟨-, hbefore⟩ | ⟨hpos, -⟩⟩
  · rw [hsame] at hlt
    exact absurd hlt (lt_irrefl _)
  · exact ⟨hzero, hbefore⟩
  · omega

/-- Two NACKs of one PDU are for different bytes. -/
theorem disjoint_of_continued (h : Continued m n) (hsame : m.nackSn = n.nackSn)
    (hm : m.InPdu (len m.nackSn)) (hn : n.InPdu (len n.nackSn)) {b : ℕ} (hb : m.Covers b) : ¬n.Covers b := by
  obtain ⟨-, hlt⟩ := h hsame
  have hstart := n.soStart_lt
  rintro (hwhole | ⟨hle, -⟩)
  · rcases hn with ⟨-, hzero, -⟩ | ⟨he2, -⟩
    · omega
    · rw [he2] at hwhole
      cases hwhole
  · rcases hb with hwhole | ⟨-, hall | hle'⟩
    · rcases hm with ⟨-, -, hall⟩ | ⟨he2, -⟩
      · rw [rlcAmStatusPduSoEndAllBytes] at hall
        omega
      · rw [he2] at hwhole
        cases hwhole
    · rw [rlcAmStatusPduSoEndAllBytes] at hall
      omega
    · omega

theorem Consistent.inPdu (he : e.Consistent len) (hn : n ∈ e.fittingNacks) : n.InPdu (len n.nackSn) := by
  obtain ⟨⟨k, -, hnk⟩, -⟩ := he.offset_le_ackSn hn
  exact (he.of_mem_nacksAt hnk).2

/-- The NACKs that fit are only for missing bytes. -/
theorem Consistent.not_has (he : e.Consistent len)
    (hone : e.fittingNacks.Pairwise fun m n ↦ m.nackSn = n.nackSn → m.soStart = 0) (hn : n ∈ e.fittingNacks)
    {b : ℕ} (hb : n.Covers b) : ¬e.Has n.nackSn b := by
  obtain ⟨pre, post, h⟩ := List.append_of_mem hn
  rw [h] at hone
  exact he.unreceived h (fun m hm ↦ (List.pairwise_append.mp hone).2.2 m hm n List.mem_cons_self) hb

/-- The NACKs that can be served. -/
theorem Peer.allFit_iff (hpeer : Peer len e s) (he : e.Consistent len)
    (hone : e.fittingNacks.Pairwise fun m n ↦ m.nackSn = n.nackSn → m.soStart = 0) :
    s.AllFit [] e.sentNacks ↔ ∀ n ∈ e.fittingNacks,
      ¬(s.pduOf n.nackSn).maxRetransmit ∧ (n.WholePdu → ¬(s.pduOf n.nackSn).ack) := by
  have hserved := served_sentNacks (hpeer.served he)
  have hin : ∀ n ∈ e.sentNacks, n.InPdu (s.pduOf n.nackSn).payloadSize := by
    refine (forall_mem_sentNacks (P := fun n ↦ n.InPdu (s.pduOf n.nackSn).payloadSize)).mpr fun n hn ↦ ?_
    rw [(hpeer.transmitted n hn).2]
    exact he.inPdu hn
  rw [AmTransmitter.allFit_iff List.Pairwise.nil (pairwise_sentNacks.mpr (he.continued hone))
    (fun m hm ↦ by cases hm) hserved.stored hin]
  exact forall_mem_sentNacks
    (P := fun n ↦ ¬(s.pduOf n.nackSn).maxRetransmit ∧ (n.WholePdu → ¬(s.pduOf n.nackSn).ack))

theorem mem_takeWhile_of_sorted {k : ℕ} (hsorted : nacks.Pairwise fun m n ↦ s.offset m.nackSn ≤ s.offset n.nackSn)
    (hn : n ∈ nacks) (hlt : s.offset n.nackSn < k) : n ∈ nacks.takeWhile fun n ↦ s.offset n.nackSn < k := by
  induction nacks with
  | nil => cases hn
  | cons m nacks ih =>
    obtain ⟨hm, hnacks⟩ := List.pairwise_cons.mp hsorted
    have hmk : s.offset m.nackSn < k := by
      rcases List.mem_cons.mp hn with rfl | hn
      · exact hlt
      · exact (hm n hn).trans_lt hlt
    rw [List.takeWhile_cons_of_pos (by simpa using hmk)]
    rcases List.mem_cons.mp hn with rfl | hn
    · exact List.mem_cons_self
    · exact List.mem_cons_of_mem _ (ih hnacks hn)

/-- The peer before a report. -/
theorem reached_start (s : AmTransmitter) : Reached s [] 0 s := ⟨fun _ _ _ ↦ rfl, Nack.Took.nil _⟩

/-- `rlc_am_nack_pdu` returns TRUE for each NACK that is sent. -/
theorem Peer.nackAll_iff (hpeer : Peer len e s) (he : e.Consistent len) :
    (∃ t, s.nackAll 0x3FFF e.sentNacks = some (t, true)) ↔ s.AllFit [] e.sentNacks :=
  AmTransmitter.nackAll_iff hpeer.valid (served_sentNacks (hpeer.served he)) (reached_start s)
    (fun m hm ↦ by cases hm) (fun _ ↦ by decide) fun _ _ ↦ Nat.zero_le _

/-- What the peer makes of a report of which each NACK can be served. -/
theorem Peer.receive (hpeer : Peer len e s) (he : e.Consistent len) (hfit : s.AllFit [] e.sentNacks)
    {info : ControlPduInfo} (hack : info.ackSn = e.fittingAckSn) (hnacks : info.nackList = e.sentNacks)
    (hfew : e.fittingNacks.length < rlcAmMaxNackInStatusPdu) :
    (∃ t, s.receiveProcessControlPdu (some info) = some t ∧ t.vtA = nextSn info.ackSn info.nackList) ↔
      ∀ d < s.offset e.fittingAckSn, snAt s.vtA d ∉ e.fittingNacks.map Nack.nackSn →
        ¬(s.pduOf (snAt s.vtA d)).Stuck := by
  have hserved := served_sentNacks (hpeer.served he)
  have hvtA := hpeer.valid.vtA_lt
  have hackSn := hpeer.offset_add he e.fittingAckSn_lt he.ackSn_le
  have hMs := hpeer.offset_add he he.vrMs_lt le_rfl
  have hackLe := he.ackSn_le
  have hwindow : s.offset info.ackSn ≤ s.offset s.vtS := by
    have hle := hpeer.vrMs_le
    rw [hack]
    omega
  have hlength : info.nackList.length < rlcAmMaxNackInStatusPdu := by
    rw [hnacks, length_sentNacks]
    exact hfew
  have hnot : ∀ n ∈ e.fittingNacks, s.offset n.nackSn ≤ s.offset e.fittingAckSn := by
    intro n hn
    have hle := (he.offset_le_ackSn hn).2
    rw [hpeer.offset_add he n.sn_lt (hle.trans hackLe), hackSn]
    omega
  have hfirst : ∀ n ∈ info.nackList.head?, s.offset n.nackSn ≤ s.offset info.ackSn := by
    rw [hnacks, hack]
    intro n hn
    exact (forall_mem_sentNacks (P := fun n ↦ s.offset n.nackSn ≤ s.offset e.fittingAckSn)).mpr hnot n
      (List.mem_of_mem_head? hn)
  have hscan : s.scan info.ackSn [] info.nackList =
      (e.sentNacks.takeWhile fun n ↦ s.offset n.nackSn < s.offset info.ackSn, s.offset info.ackSn) := by
    rw [hnacks]
    exact scan_of_allFit hserved.sorted (fun m hm ↦ by cases hm) hfit
  obtain ⟨hnone, hsome⟩ := receive_scanned hpeer.valid hlength hwindow hfirst
  rw [hscan, hack] at hnone hsome
  have hlisted (d : ℕ) (hd : d < s.offset e.fittingAckSn) :
      snAt s.vtA d ∈ (e.sentNacks.takeWhile fun n ↦ s.offset n.nackSn < s.offset e.fittingAckSn).map Nack.nackSn ↔
        snAt s.vtA d ∈ e.fittingNacks.map Nack.nackSn := by
    have hlt := s.offset_lt e.fittingAckSn
    rw [← map_nackSn_sentNacks]
    constructor
    · intro hmem
      exact List.map_subset _ (List.takeWhile_sublist _).subset hmem
    · intro hmem
      obtain ⟨n, hn, heq⟩ := List.mem_map.mp hmem
      refine List.mem_map.mpr ⟨n, mem_takeWhile_of_sorted hserved.sorted hn ?_, heq⟩
      rw [heq, offset_snAt hvtA (by omega)]
      exact hd
  constructor
  · rintro ⟨t, ht, -⟩ d hd hno hstuck
    have hfails : s.Fails
        (e.sentNacks.takeWhile fun n ↦ s.offset n.nackSn < s.offset e.fittingAckSn, s.offset e.fittingAckSn) 0 :=
      .inr ⟨d, Nat.zero_le _, hd, mt (hlisted d hd).mp hno, hstuck⟩
    rw [hnone hfails] at ht
    cases ht
  · intro hreleased
    have hfails : ¬s.Fails
        (e.sentNacks.takeWhile fun n ↦ s.offset n.nackSn < s.offset e.fittingAckSn, s.offset e.fittingAckSn) 0 := by
      rintro (⟨n, hn, -, hback⟩ | ⟨d, -, hd, hno, hstuck⟩)
      · have hforward := hserved.forward n ((List.takeWhile_sublist _).subset hn)
        omega
      · exact hreleased d hd (mt (hlisted d hd).mpr hno) hstuck
    obtain ⟨t, L, ht, -, -, -, -, hvtA'⟩ := hsome hfails
    rw [hack]
    exact ⟨t, ht, hvtA' rfl⟩

/-- In order, no entry of a PDU begins where the one before does. -/
theorem Consistent.oneHole (he : e.Consistent len)
    (horder : e.fittingNacks.Pairwise fun m n ↦ e.offset m.nackSn < e.offset n.nackSn ∨
      m.nackSn = n.nackSn ∧ m.soStart < n.soStart) :
    e.fittingNacks.Pairwise fun m n ↦ m.nackSn = n.nackSn → m.soStart = 0 := by
  have hfollows := he.missingNacks_pairwise.sublist e.fittingNacks_isPrefix.sublist
  refine (hfollows.and horder).imp fun {m n} h hsame ↦ ?_
  obtain ⟨hfollows, horder⟩ := h
  rw [Follows, hsame] at hfollows
  rw [hsame] at horder
  have hlt : m.soStart < n.soStart := by
    rcases horder with hlt | ⟨-, hlt⟩
    · exact absurd hlt (lt_irrefl _)
    · exact hlt
  rcases hfollows with hoffset | ⟨-, ⟨hzero, -⟩ | ⟨-, heq⟩⟩
  · exact absurd hoffset (lt_irrefl _)
  · exact hzero
  · exact absurd heq hlt.ne

/-- With one hole in each PDU, the NACKs are in order. -/
theorem Consistent.ordered (he : e.Consistent len)
    (hone : e.fittingNacks.Pairwise fun m n ↦ m.nackSn = n.nackSn → m.soStart = 0) :
    e.fittingNacks.Pairwise fun m n ↦ e.offset m.nackSn < e.offset n.nackSn ∨
      m.nackSn = n.nackSn ∧ m.soStart < n.soStart := by
  have hfollows := he.missingNacks_pairwise.sublist e.fittingNacks_isPrefix.sublist
  refine (hfollows.and (he.continued hone)).imp fun {m n} h ↦ ?_
  obtain ⟨hlt | ⟨hsame, -⟩, hcontinued⟩ := h
  · exact .inl hlt
  · obtain ⟨hzero, hbefore⟩ := hcontinued hsame
    exact .inr ⟨hsame, by omega⟩

/-- With one hole in each PDU, the NACKs of a PDU are disjoint. -/
theorem Consistent.disjoint (he : e.Consistent len)
    (hone : e.fittingNacks.Pairwise fun m n ↦ m.nackSn = n.nackSn → m.soStart = 0) :
    e.fittingNacks.Pairwise fun m n ↦ m.nackSn = n.nackSn → ∀ b, m.Covers b → ¬n.Covers b :=
  (he.continued hone).imp_of_mem fun hm hn hcontinued hsame _ hb ↦
    disjoint_of_continued hcontinued hsame (he.inPdu hm) (he.inPdu hn) hb

/-- An SDU has been sent in `n` PDUs of `size` bytes each. -/
def peerOf (n size : ℕ) : AmTransmitter :=
  let header (i : ℕ) : Bytes := [if i + 1 = n then 0xB0 else 0x88, UInt8.ofNat i]
  { init with
    inputSdus := Function.update (fun _ ↦ .zero) 0 { AmTxSdu.zero with sduSize := n * size, nbPdus := UInt8.ofNat n }
    nbSdu := 1
    nextSduIndex := 1
    currentSduIndex := 1
    vtS := n
    txDataPduBuffer := fun i ↦
      if i < n then
        { AmTxPdu.zero with
          memBlock := some (header i ++ List.replicate size 0)
          payload := 2
          sdusIndex := [0]
          headerAndPayloadSize := size + 2
          payloadSize := size
          sn := i
          nbSdus := 1
          transmitted := true }
      else .zero }

theorem peerOf_valid {n size : ℕ} (hn : n ≤ rlcAmWindowSize) (hsize : 0 < size) : (peerOf n size).Valid where
  sdusIndex_lt i index hindex := by
    simp only [peerOf] at hindex
    by_cases hi : i < n
    · rw [if_pos hi] at hindex
      rw [List.mem_singleton.mp hindex]
      decide
    · rw [if_neg hi] at hindex
      cases hindex
  memBlock_eq_none i _ := by
    rcases eq_or_ne i 0 with rfl | hzero
    · rfl
    · simp only [peerOf, Function.update_of_ne hzero]
      rfl
  nextSduIndex_lt := show 1 < 1024 by decide
  currentSduIndex_lt := show 1 < 1024 by decide
  vtA_lt := show 0 < 1024 by decide
  vtS_le := by
    show amDiffSn n 0 ≤ rlcAmWindowSize
    rw [rlcAmWindowSize] at hn ⊢
    rw [amDiffSn_eq]
    omega
  payloadSize_pos i hmem := by
    simp only [peerOf] at hmem ⊢
    by_cases hi : i < n
    · rw [if_pos hi]
      exact hsize
    · rw [if_neg hi] at hmem
      cases hmem

theorem halfReceived_peer : Peer (fun _ ↦ 4) halfReceived (peerOf 2 4) where
  valid := peerOf_valid (by decide) (by decide)
  vrR_le := by decide
  vrMs_le := by decide
  transmitted := by decide

/-- Of 20 bytes, those from 5 to 9 and from 15 on are missing. -/
def twoHoles : AmReceiver := ⟨[segmentOf 0 0 5 false, segmentOf 0 10 5 false], 0, 1, 20⟩

theorem twoHoles_consistent : twoHoles.Consistent fun _ ↦ 20 where
  vrR_lt := by decide
  vrMs_lt := by decide
  len_le _ := by decide
  listed := by
    refine ⟨List.forall_mem_cons.mpr ⟨?_, List.forall_mem_singleton.mpr ?_⟩, ?_⟩
    · exact ⟨by decide, by decide, by decide, by decide, by decide⟩
    · exact ⟨by decide, by decide, by decide, by decide, by decide⟩
    · exact List.pairwise_pair.mpr (.inr (by decide))
  complete := by
    refine List.forall_mem_cons.mpr ⟨fun h ↦ ?_, List.forall_mem_singleton.mpr fun h ↦ ?_⟩
    · cases h
    · cases h
  missing _ := by
    refine ⟨5, by decide, ?_⟩
    rintro ⟨p, hp, -, hholds⟩
    rcases List.mem_cons.mp hp with rfl | hp
    · exact absurd hholds.2 (by decide)
    · rw [List.mem_singleton.mp hp] at hholds
      exact absurd hholds.1 (by decide)

theorem twoHoles_peer : Peer (fun _ ↦ 20) twoHoles (peerOf 1 20) where
  valid := peerOf_valid (by decide) (by decide)
  vrR_le := by decide
  vrMs_le := by decide
  transmitted := by decide

end EdgeSlice.Rlc.AmReceiver
