import EdgeSlice.Rlc.AmDelivery
import EdgeSlice.Rlc.AmStatusRoundTrip
import EdgeSlice.Rlc.AmStatusSound

/-! What the receiving side of AM reports in the course of a run, and what the other side makes of it. -/

namespace EdgeSlice.Rlc

open Function

theorem headD_le_of_mem {ds : List ℕ} {d c : ℕ} (h : ds.Pairwise (· < ·)) (hd : d ∈ ds) : ds.headD c ≤ d := by
  cases ds with
  | nil => cases hd
  | cons e ds =>
    rcases List.mem_cons.mp hd with rfl | hmem
    · exact le_rfl
    · exact ((List.pairwise_cons.mp h).1 d hmem).le

theorem headD_le_of_forall {ds : List ℕ} {c : ℕ} (h : ∀ d ∈ ds, d ≤ c) : ds.headD c ≤ c := by
  cases ds with
  | nil => exact le_rfl
  | cons d ds => exact h d List.mem_cons_self

namespace AmTxPdu

variable {p q r : AmTxPdu} {increment : Bool} {size : ℕ}

/-- All of the PDU is to be sent again, or nothing. -/
structure Undivided (p : AmTxPdu) : Prop where
  nackSoStart : p.nackSoStart = 0
  retx : p.retxPayloadSize = 0 ∨ p.retxPayloadSize = p.payloadSize

/-- What acknowledgements and retransmissions of whole PDUs leave of a PDU. -/
structure Keeps (p q : AmTxPdu) : Prop where
  memBlock : q.memBlock = none ∨ q.memBlock = p.memBlock
  headerAndPayloadSize : q.headerAndPayloadSize = p.headerAndPayloadSize
  undivided : p.Undivided → q.Undivided

theorem Keeps.refl (p : AmTxPdu) : p.Keeps p := ⟨Or.inr rfl, rfl, id⟩

theorem Keeps.trans (h : p.Keeps q) (h' : q.Keeps r) : p.Keeps r where
  memBlock := by
    rcases h'.memBlock with hnone | heq
    · exact Or.inl hnone
    · rw [heq]
      exact h.memBlock
  headerAndPayloadSize := h'.headerAndPayloadSize.trans h.headerAndPayloadSize
  undivided := h'.undivided ∘ h.undivided

/-- A NACK of the whole PDU is taken if the PDU has not been acknowledged. -/
theorem keeps_takeNack {again : Bool}
    (h : p.takeNack again 0 rlcAmStatusPduSoEndAllBytes = .accepted q increment size) :
    p.Keeps (q.schedule again increment size).1 ∧ (q.schedule again increment size).1.ack = p.ack := by
  rw [takeNack] at h
  split_ifs at h with hmem horder hall hfresh hpos
  · cases h
    obtain rfl := Bool.eq_false_iff.mpr hfresh.1
    simp only [schedule, Bool.false_eq_true, not_false_eq_true, if_true]
    split_ifs <;> exact ⟨⟨Or.inr rfl, rfl, fun _ ↦ ⟨rfl, Or.inr rfl⟩⟩, rfl⟩
  all_goals exact absurd ⟨rfl, rfl⟩ hall

end AmTxPdu

namespace AmTransmitter

variable {s t u : AmTransmitter} {N M : Set ℕ} {p : AmTxPdu} {nacks : List Nack} {ds : List ℕ}
  {a c d n x sn nackSn prevNackSn fuel : ℕ} {free status : Bool}

/-- Between `s` and `t` PDUs have been acknowledged in the slots `N` only, and PDUs are still whole. -/
structure Acks (N : Set ℕ) (s t : AmTransmitter) : Prop where
  only : s.OnlyPdus t
  keeps : ∀ i, (s.txDataPduBuffer i).Keeps (t.txDataPduBuffer i)
  ack : ∀ i, (t.txDataPduBuffer i).ack = true → (s.txDataPduBuffer i).ack = true ∨ i ∈ N

namespace Acks

theorem refl (N : Set ℕ) (s : AmTransmitter) : s.Acks N s := ⟨.refl s, fun _ ↦ .refl _, fun _ ↦ Or.inl⟩

theorem trans (h : s.Acks N t) (h' : t.Acks N u) : s.Acks N u where
  only := h.only.trans h'.only
  keeps i := (h.keeps i).trans (h'.keeps i)
  ack i hi := (h'.ack i hi).elim (h.ack i) Or.inr

theorem mono (h : s.Acks N t) (hN : N ⊆ M) : s.Acks M t where
  only := h.only
  keeps := h.keeps
  ack i hi := (h.ack i hi).imp_right fun hi ↦ hN hi

/-- What does not touch the PDUs. -/
theorem of_buffer (h : s.OnlyPdus t) (hbuffer : t.txDataPduBuffer = s.txDataPduBuffer) (N : Set ℕ) : s.Acks N t where
  only := h
  keeps i := by
    rw [hbuffer]
    exact .refl _
  ack i hi := by
    rw [hbuffer] at hi
    exact Or.inl hi

/-- One slot is written. -/
theorem setPdu (h : s.OnlyPdus (t.setPdu sn p)) (hbuffer : t.txDataPduBuffer = s.txDataPduBuffer)
    (hkeeps : (s.pduOf sn).Keeps p) (hack : p.ack = true → (s.pduOf sn).ack = true ∨ sn % rlcAmWindowSize ∈ N) :
    s.Acks N (t.setPdu sn p) := by
  have hslot (i : ℕ) : (t.setPdu sn p).txDataPduBuffer i =
      if i = sn % rlcAmWindowSize then p else s.txDataPduBuffer i := by
    rw [← hbuffer]
    exact update_apply _ _ _ _
  refine ⟨h, fun i ↦ ?_, fun i hi ↦ ?_⟩
  · rw [hslot]
    split_ifs with heq
    · rw [heq]
      exact hkeeps
    · exact .refl _
  · rw [hslot] at hi
    split_ifs at hi with heq
    · rw [heq]
      exact hack hi
    · exact Or.inl hi

end Acks

theorem ackPdu_acks (h : s.ackPdu sn free = some t) : s.Acks {sn % rlcAmWindowSize} t := by
  obtain ⟨honly, -⟩ := ackPdu_only h
  simp only [ackPdu] at h
  split_ifs at h <;> cases h
  · exact .setPdu honly rfl ⟨Or.inl rfl, rfl, fun hp ↦ ⟨hp.nackSoStart, Or.inl rfl⟩⟩ fun _ ↦ Or.inr rfl
  · exact .setPdu honly rfl ⟨Or.inr rfl, rfl, fun hp ↦ ⟨hp.nackSoStart, Or.inl rfl⟩⟩ fun _ ↦ Or.inr rfl
  · exact .setPdu honly rfl ⟨Or.inl rfl, rfl, fun hp ↦ ⟨hp.nackSoStart, hp.retx⟩⟩ fun _ ↦ Or.inr rfl
  · exact .setPdu honly rfl ⟨Or.inr rfl, rfl, fun hp ↦ ⟨hp.nackSoStart, hp.retx⟩⟩ fun _ ↦ Or.inr rfl
  · exact .setPdu honly rfl ⟨Or.inr rfl, rfl, fun hp ↦ ⟨hp.nackSoStart, hp.retx⟩⟩ fun _ ↦ Or.inr rfl

theorem ackRange_acks (h : s.ackRange free a n d = some t) : s.Acks (slots a d n) t := by
  induction n generalizing d s with
  | zero =>
    obtain rfl := Option.some.inj h
    exact .refl _ _
  | succ n ih =>
    rw [ackRange, Option.bind_eq_bind, Option.bind_eq_some_iff] at h
    obtain ⟨u, hack, hrange⟩ := h
    refine ((ackPdu_acks hack).mono ?_).trans ((ih hrange).mono ?_)
    · rintro i rfl
      exact ⟨d, le_rfl, by omega, rfl⟩
    · rintro i ⟨e, hde, hed, rfl⟩
      exact ⟨e, by omega, by omega, rfl⟩

theorem nackPdu_acks (N : Set ℕ) (h : s.nackPdu sn prevNackSn 0 rlcAmStatusPduSoEndAllBytes = some (t, status)) :
    s.Acks N t := by
  obtain ⟨honly, -⟩ := nackPdu_only h
  rw [nackPdu] at h
  split at h
  · cases h
  · cases h
    exact .refl _ _
  · next p increment size htake =>
    obtain ⟨hkeeps, hack⟩ := AmTxPdu.keeps_takeNack htake
    cases h
    exact .setPdu honly rfl hkeeps fun hp ↦ Or.inl (hack ▸ hp)

/-- The PDUs from the one `d` after `a` on and before the one `c` after `a`, without those that are NACKed. -/
def between (a d c : ℕ) (ds : List ℕ) : Set ℕ := {i | ∃ e, d ≤ e ∧ e < c ∧ e ∉ ds ∧ i = snAt a e % rlcAmWindowSize}

/-- Where the NACKs are in order and each is for a whole PDU, no PDU that is NACKed is acknowledged. -/
theorem nackLoop_acks (ha : a < 1024) (hc : c < 1024) (hxc : x ≤ c) (hsorted : ds.Pairwise (· < ·))
    (hds : ∀ d ∈ ds, x ≤ d ∧ d < c) (hnacks : nacks.map Nack.nackSn = ds.map (snAt a))
    (hwhole : ∀ n ∈ nacks, n.soStart = 0 ∧ n.soEnd = rlcAmStatusPduSoEndAllBytes)
    (hnext : nackSn = snAt a (ds.headD c)) (hprev : x = ds.headD c ∨ prevNackSn ≠ nackSn)
    (h : s.nackLoop (snAt a c) fuel (snAt a x) nackSn prevNackSn nacks = some (t, status)) :
    s.Acks (between a x c ds) t := by
  induction fuel generalizing s x ds nacks nackSn prevNackSn with
  | zero => cases h
  | succ fuel ih =>
    rw [nackLoop] at h
    rcases hxc.eq_or_lt with rfl | hlt
    · rw [if_neg fun hne ↦ hne rfl] at h
      cases h
      exact .refl _ _
    rw [if_pos (snAt_ne ha (by omega) hc hlt.ne)] at h
    have hle : x ≤ ds.headD c ∧ ds.headD c ≤ c := by
      cases ds with
      | nil => exact ⟨hlt.le, le_rfl⟩
      | cons d ds => exact ⟨(hds d List.mem_cons_self).1, (hds d List.mem_cons_self).2.le⟩
    by_cases hcursor : x = ds.headD c
    · -- the cursor is at a NACK
      cases ds with
      | nil => exact absurd hcursor hlt.ne
      | cons d ds =>
        obtain rfl : x = d := hcursor
        obtain ⟨m, nacks, rfl⟩ := List.exists_cons_of_ne_nil (show nacks ≠ [] by rintro rfl; cases hnacks)
        obtain ⟨hfirst, hsorted⟩ := List.pairwise_cons.mp hsorted
        obtain ⟨⟨hstart, hend⟩, hwhole⟩ := List.forall_mem_cons.mp hwhole
        obtain ⟨-, hnacks⟩ := List.cons.inj hnacks
        rw [if_neg fun hne ↦ hne hnext.symm, Option.bind_eq_bind, Option.bind_eq_some_iff] at h
        obtain ⟨⟨u, taken⟩, hnack, h⟩ := h
        dsimp only [List.headD_cons] at hnack h
        rw [hstart, hend] at hnack
        have hkept := nackPdu_acks (between a x c (x :: ds)) hnack
        have hsub : between a (x + 1) c ds ⊆ between a x c (x :: ds) := by
          rintro i ⟨e, hxe, hec, he, rfl⟩
          refine ⟨e, by omega, hec, ?_, rfl⟩
          rw [List.mem_cons, not_or]
          exact ⟨by omega, he⟩
        have hds' (d : ℕ) (hd : d ∈ ds) : x + 1 ≤ d ∧ d < c :=
          ⟨hfirst d hd, (hds d (List.mem_cons_of_mem _ hd)).2⟩
        by_cases htaken : taken = true
        swap
        · rw [if_pos htaken] at h
          cases h
          exact hkept
        rw [if_neg (not_not_intro htaken)] at h
        rw [show nackSn = snAt a x from hnext] at h
        refine hkept.trans (Acks.mono ?_ hsub)
        cases nacks with
        | nil =>
          obtain rfl : ds = [] := List.map_eq_nil_iff.mp hnacks.symm
          have hne : snAt a x ≠ snAt a c := snAt_ne ha (by omega) hc hlt.ne
          dsimp only [List.tail_cons] at h
          rw [if_pos hne, if_pos hne, mask_succ_snAt] at h
          exact ih hlt List.Pairwise.nil hds' rfl hwhole rfl (Or.inr hne) h
        | cons m' nacks =>
          cases ds with
          | nil => cases hnacks
          | cons d ds =>
            obtain ⟨hm', -⟩ := List.cons.inj hnacks
            have hd := hds' d List.mem_cons_self
            have hne : snAt a x ≠ m'.nackSn := by
              rw [hm']
              exact snAt_ne ha (by omega) (by omega) (by omega)
            dsimp only [List.tail_cons] at h
            rw [if_pos hne, mask_succ_snAt] at h
            exact ih hlt hsorted hds' hnacks hwhole hm' (Or.inr hne) h
    · have hne : snAt a x ≠ nackSn := by
        rw [hnext]
        exact snAt_ne ha (by omega) (by omega) hcursor
      rw [if_pos hne, Option.bind_eq_bind, Option.bind_eq_some_iff] at h
      obtain ⟨u, hack, h⟩ := h
      rw [if_pos (hprev.resolve_left hcursor), mask_succ_snAt] at h
      have hds' (d : ℕ) (hd : d ∈ ds) : x + 1 ≤ d ∧ d < c :=
        ⟨(lt_of_le_of_ne hle.1 hcursor).trans_le (headD_le_of_mem hsorted hd), (hds d hd).2⟩
      refine ((ackPdu_acks hack).mono ?_).trans ((ih hlt hsorted hds' hnacks hwhole hnext
        (Or.inr (hprev.resolve_left hcursor)) h).mono ?_)
      · rintro i rfl
        exact ⟨x, le_rfl, hlt, fun hx ↦ absurd (hds' x hx).1 (by omega), rfl⟩
      · rintro i ⟨e, hxe, hec, he, rfl⟩
        exact ⟨e, by omega, hec, he, rfl⟩

end AmTransmitter

/-- The report is for the PDUs from the `n`th on, of which it acknowledges the first `c` but for those in `ds`. What it
acknowledges has arrived, and what it asks for has not. -/
structure ControlPduInfo.Reports (arrived : List ℕ) (built n c : ℕ) (ds : List ℕ) (info : ControlPduInfo) : Prop where
  ackSn_eq : info.ackSn = snAt n c
  nackSn_eq : info.nackList.map Nack.nackSn = ds.map (snAt n)
  whole : ∀ m ∈ info.nackList, m.soStart = 0 ∧ m.soEnd = rlcAmStatusPduSoEndAllBytes
  sorted : ds.Pairwise (· < ·)
  lt : ∀ d ∈ ds, d < c
  first : ds.headD c = 0
  le : n + c ≤ built
  missing : ∀ d ∈ ds, n + d ∉ arrived
  arrived : ∀ d < c, d ∉ ds → n + d ∈ arrived

namespace AmTransmitter

variable {s t u : AmTransmitter} {info : ControlPduInfo} {arrived ds : List ℕ} {a built c m n ackSn soStop : ℕ}

theorem snAt_slot_eq (a d : ℕ) : snAt (a % 1024) d % rlcAmWindowSize = (a + d) % rlcAmWindowSize := by
  simp only [snAt, rlcAmWindowSize]
  omega

theorem snAt_number {a n : ℕ} (h : a ≤ n) (d : ℕ) : snAt n d = snAt (a % 1024) (n - a + d) := by
  simp only [snAt]
  omega

/-- Where all of a PDU is to be sent again no SDU is confirmed. -/
theorem acceptStatus_eq (h : s.WindowKept) (hreleased : ∀ d < m, (s.pduOf (snAt s.vtA d)).Released)
    (ht : s.acceptStatus ackSn (snAt s.vtA m) (amPrevSn (snAt s.vtA m)) soStop = some t) :
    t = { s.stopPoll ackSn with vtA := snAt s.vtA m, vtMs := (snAt s.vtA m + rlcAmWindowSize) &&& 0x3FF } := by
  have hstop := stopPoll_only ackSn s
  have hvtA := hstop.vtA_eq
  rw [acceptStatus, Option.bind_eq_bind, Option.bind_eq_some_iff] at ht
  obtain ⟨u, hu, ht⟩ := ht
  generalize s.stopPoll ackSn = v at hu hstop hvtA
  have hsent := (hstop.windowKept h).not_transmitted fun d hd ↦ by
    rw [hvtA]
    exact (hstop.pdus _).released (hreleased d hd)
  rw [hvtA, pduOf] at hsent
  rw [confirmSdus, if_neg hsent] at hu
  cases hu
  exact (Option.some.inj ht).symm

theorem lastConfirmed_eq (h : ∀ i, (s.txDataPduBuffer i).Undivided) (nackSn : ℕ) :
    s.lastConfirmed nackSn = (amPrevSn nackSn, 0x7FFF) := by
  rw [lastConfirmed]
  split_ifs with hall hpart
  · rfl
  · exact absurd (h _).nackSoStart hpart
  · rfl

/-- The slots of the PDUs from the `a`th on that a report acknowledges. -/
def reported (arrived : List ℕ) (a n c : ℕ) : Set ℕ :=
  {i | ∃ k, a ≤ k ∧ k < n + c ∧ (k < n ∨ k ∈ arrived) ∧ i = k % rlcAmWindowSize}

theorem slots_subset_reported (han : a ≤ n) : slots (a % 1024) 0 (n - a) ⊆ reported arrived a n c := by
  rintro i ⟨e, -, he, rfl⟩
  exact ⟨a + e, by omega, by omega, Or.inl (by omega), snAt_slot_eq a e⟩

theorem between_subset_reported (han : a ≤ n) (h : info.Reports arrived built n c ds) :
    between (a % 1024) (n - a) (n - a + c) (ds.map (n - a + ·)) ⊆ reported arrived a n c := by
  rintro i ⟨e, hle, hlt, he, rfl⟩
  have hmem : n + (e - (n - a)) ∈ arrived := by
    refine h.arrived _ (by omega) fun hd ↦ he (List.mem_map.mpr ⟨_, hd, ?_⟩)
    omega
  refine ⟨a + e, by omega, by omega, Or.inr ?_, snAt_slot_eq a e⟩
  rwa [show a + e = n + (e - (n - a)) by omega]

theorem ackUpTo_reported (hs : s.WindowKept) (hvtA : s.vtA = a % 1024) (han : a ≤ n)
    (hle : n - a ≤ s.offset s.vtS) (h : s.ackUpTo (snAt s.vtA (n - a)) 1025 s.vtA = some t) :
    s.Acks (reported arrived a n c) t ∧ ∀ d < n - a, (t.pduOf (snAt t.vtA d)).Released := by
  have hlow := hs.le
  have hoffset : s.offset (snAt s.vtA (n - a)) = n - a := offset_snAt hs.vtA_lt (by omega)
  have hrange := hs.ackRange (snAt_lt _ _) h
  rw [hoffset] at hrange
  have hacks := ackRange_acks hrange
  rw [hvtA] at hacks
  refine ⟨hacks.mono (slots_subset_reported han), fun d hd ↦ ?_⟩
  exact (hs.ackUpTo (snAt_lt _ _) h).2 d (hoffset.symm ▸ hd)

/-- The end of a report. -/
theorem acceptStatus_acks {N : Set ℕ} (hs : s.WindowKept) (hacks : s.Acks N u)
    (hreleased : ∀ d < m, (u.pduOf (snAt u.vtA d)).Released)
    (ht : u.acceptStatus ackSn (snAt s.vtA m) (amPrevSn (snAt s.vtA m)) soStop = some t) :
    ∃ v, s.Acks N v ∧ t = { v with vtA := snAt v.vtA m, vtMs := (snAt v.vtA m + rlcAmWindowSize) &&& 0x3FF } ∧
      ∀ d < m, (v.pduOf (snAt v.vtA d)).Released := by
  have hstop := stopPoll_only ackSn u
  rw [← hacks.only.vtA_eq] at ht
  refine ⟨u.stopPoll ackSn, hacks.trans (.of_buffer hstop (stopPoll_buffer _ _) _), ?_, fun d hd ↦ ?_⟩
  · rw [acceptStatus_eq (hacks.only.windowKept hs) hreleased ht, hstop.vtA_eq]
  · rw [hstop.vtA_eq]
    exact (hstop.pdus _).released (hreleased d hd)

/-- What a report makes of the transmitter: VT(A) moves to the first PDU that has not arrived, or stays. -/
theorem receive_reports (hs : s.WindowKept) (hwhole : ∀ i, (s.txDataPduBuffer i).Undivided) (hvtA : s.vtA = a % 1024)
    (han : a ≤ n) (hbuilt : built ≤ a + s.offset s.vtS) (h : info.Reports arrived built n c ds)
    (ht : s.receiveProcessControlPdu (some info) = some t) :
    ∃ u, s.Acks (reported arrived a n c) u ∧
      (t = u ∨ t = { u with vtA := snAt u.vtA (n - a), vtMs := (snAt u.vtA (n - a) + rlcAmWindowSize) &&& 0x3FF } ∧
        ∀ d < n - a, (u.pduOf (snAt u.vtA d)).Released) := by
  have hle := h.le
  have hlow := hs.le
  have hlt := hs.vtA_lt
  have hsnAt (d : ℕ) : snAt n d = snAt s.vtA (n - a + d) := by rw [hvtA, snAt_number han]
  have hpassed : n - a ≤ s.offset s.vtS := by omega
  have hspan : n - a + c < 1024 := by omega
  rw [receiveProcessControlPdu] at ht
  split_ifs at ht with hlong hwindow
  · cases hnacks : info.nackList with
    | nil =>
      have hnil : ds = [] := by
        have hmap := h.nackSn_eq
        rw [hnacks] at hmap
        exact List.map_eq_nil_iff.mp hmap.symm
      have hc : c = 0 := by
        have hfirst := h.first
        rwa [hnil] at hfirst
      have hack : info.ackSn = snAt s.vtA (n - a) := by rw [h.ackSn_eq, hsnAt, hc, Nat.add_zero]
      rw [hnacks] at ht
      simp only [Option.bind_eq_bind, Option.bind_eq_some_iff] at ht
      obtain ⟨v, hv, ht⟩ := ht
      rw [hack] at hv
      obtain ⟨hacks, hreleased⟩ := ackUpTo_reported hs hvtA han hpassed hv
      rw [hack] at ht
      obtain ⟨w, hboth, hmoved⟩ := acceptStatus_acks hs hacks hreleased ht
      exact ⟨w, hboth, Or.inr hmoved⟩
    | cons nack nacks =>
      have hmap := h.nackSn_eq
      rw [hnacks] at hmap
      obtain ⟨d, ds', rfl⟩ := List.exists_cons_of_ne_nil (show ds ≠ [] by rintro rfl; cases hmap)
      obtain rfl : d = 0 := h.first
      have hnack : nack.nackSn = snAt s.vtA (n - a) := by
        rw [(List.cons.inj hmap).1, hsnAt, Nat.add_zero]
      rw [hnacks] at ht
      simp only [Option.bind_eq_bind, Option.bind_eq_some_iff] at ht
      obtain ⟨v, hv, ⟨w, status⟩, hw, ht⟩ := ht
      rw [hnack] at hv
      obtain ⟨hacks, hreleased⟩ := ackUpTo_reported hs hvtA han hpassed hv
      have hloop : v.Acks (reported arrived a n c) w := by
        rw [h.ackSn_eq, hsnAt, hnack] at hw
        have hsorted : ((0 :: ds').map (n - a + ·)).Pairwise (· < ·) :=
          List.pairwise_map.mpr (h.sorted.imp fun hlt ↦ Nat.add_lt_add_left hlt _)
        have hall := nackLoop_acks hlt hspan (Nat.le_add_right _ _) hsorted ?_ ?_ (hnacks ▸ h.whole) rfl (Or.inl rfl) hw
        · rw [hvtA] at hall
          exact hall.mono (between_subset_reported han h)
        · intro d hd
          obtain ⟨e, he, rfl⟩ := List.mem_map.mp hd
          have hlt := h.lt e he
          omega
        · rw [hmap, List.map_map]
          exact List.map_congr_left fun d _ ↦ hsnAt d
      have hboth := hacks.trans hloop
      cases status with
      | false =>
        cases ht
        exact ⟨_, hboth, Or.inl rfl⟩
      | true =>
        rw [if_pos rfl, lastConfirmed_eq fun i ↦ (hacks.keeps i).undivided (hwhole i), hnack] at ht
        have hstill (d : ℕ) (hd : d < n - a) : (w.pduOf (snAt w.vtA d)).Released := by
          rw [hloop.only.vtA_eq]
          exact (hloop.only.pdus _).released (hreleased d hd)
        obtain ⟨u, hall, hmoved⟩ := acceptStatus_acks hs hboth hstill ht
        exact ⟨u, hall, Or.inr hmoved⟩
  · cases ht
    exact ⟨s, .refl _ _, Or.inl rfl⟩

end AmTransmitter

namespace Nack

variable {nacks : List Nack}

theorem extended_clearLastE1 (h : ∀ n ∈ nacks, n.e1 = true) : Extended (clearLastE1 nacks) := by
  induction nacks with
  | nil => trivial
  | cons n nacks ih =>
    obtain ⟨hn, hnacks⟩ := List.forall_mem_cons.mp h
    cases nacks with
    | nil => exact ⟨rfl, trivial⟩
    | cons m nacks =>
      have hmore : (clearLastE1 (m :: nacks)).isEmpty = false := by
        cases nacks <;> rfl
      refine ⟨?_, ih hnacks⟩
      rw [hmore, hn]
      rfl

@[simp] theorem received_nackSn (n : Nack) : n.received.nackSn = n.nackSn := by
  rw [received]
  split <;> rfl

/-- A NACK without offsets is read as one of all bytes. -/
theorem received_whole {n : Nack} (h : n.e2 = false) :
    n.received.soStart = 0 ∧ n.received.soEnd = rlcAmStatusPduSoEndAllBytes := by
  rw [received, h]
  exact ⟨rfl, rfl⟩

/-- NACKs of whole PDUs are read as such, whatever their E1 fields are. -/
theorem received_ofPdu {sns : List ℕ} (h : (nacks.map fun n ↦ { n with e1 := true }) = sns.map ofPdu) :
    (nacks.map received).map nackSn = sns.map (· % 2 ^ 10) ∧
      ∀ m ∈ nacks.map received, m.soStart = 0 ∧ m.soEnd = rlcAmStatusPduSoEndAllBytes := by
  refine ⟨?_, fun m hm ↦ ?_⟩
  · calc (nacks.map received).map nackSn
        = (nacks.map fun n ↦ { n with e1 := true }).map nackSn := by
          rw [List.map_map, List.map_map]
          exact List.map_congr_left fun n _ ↦ n.received_nackSn
      _ = sns.map (· % 2 ^ 10) := by
          rw [h, List.map_map]
          exact List.map_congr_left fun _ _ ↦ rfl
  · obtain ⟨n, hn, rfl⟩ := List.mem_map.mp hm
    have hmem := List.mem_map_of_mem (f := fun n : Nack ↦ { n with e1 := true }) hn
    rw [h] at hmem
    obtain ⟨sn, -, heq⟩ := List.mem_map.mp hmem
    exact received_whole (congrArg e2 heq).symm

end Nack

namespace AmRxEntity

open AmRxBlock Budget StatusReport

variable {e : AmRxEntity} {content : ℕ → AmPduInfo → Bytes → Prop} {arrived : List ℕ} {size : ℕ → ℕ} {nb : ℕ}

/-- A receiver of whole PDUs, as reports see it. -/
theorem InOrder.consistent (h : e.InOrder content arrived)
    (hsize : ∀ k, 0 < size k ∧ size k ≤ rlcAmStatusPduSoEndAllBytes)
    (hcontent : ∀ k info data, content k info data → info.so = 0 ∧ info.payloadSize = size k) (nb : ℕ) :
    (e.toReceiver nb).Consistent fun sn ↦ size (e.reassembled.length + e.offset sn) := by
  have hblock (p : AmRxBlock) (hp : p ∈ e.receiverBuffer) : p.pduInfo.sn < 1024 ∧ p.Complete ∧
      p.pduInfo.so = 0 ∧ p.pduInfo.payloadSize = size (e.reassembled.length + e.offset p.pduInfo.sn) := by
    obtain ⟨hsn, hcomplete, hp⟩ := h.holds.block p hp
    exact ⟨hsn, hcomplete, hcontent _ _ _ hp⟩
  refine ⟨h.kept.vrR_lt, h.kept.vrMs_lt, fun sn ↦ (hsize _).2, ⟨?_, ?_⟩, ?_, fun _ ↦ ⟨0, (hsize _).1, ?_⟩⟩
  · refine List.forall_mem_map.mpr fun p hp ↦ ?_
    obtain ⟨hsn, hcomplete, hso, hpayload⟩ := hblock p hp
    have hpos := (hsize (e.reassembled.length + e.offset p.pduInfo.sn)).1
    refine ⟨hsn, by omega, by omega, fun _ ↦ ⟨hcomplete.marked, hso, hpayload⟩, fun hrf ↦ ?_⟩
    rw [hcomplete.rf] at hrf
    cases hrf
  · exact List.pairwise_map.mpr (h.holds.strict.imp Or.inl)
  · refine List.forall_mem_map.mpr fun p hp _ b hb ↦ ?_
    obtain ⟨-, -, hso, hpayload⟩ := hblock p hp
    refine ⟨p.toAmRxPdu, List.mem_map_of_mem hp, rfl, ?_, ?_⟩
    · omega
    · omega
  · rintro ⟨q, hq, hsn, -⟩
    obtain ⟨p, hp, rfl⟩ := List.mem_map.mp hq
    have hpos : 0 < amDiffSn p.sn e.vrR := h.offset_pos p hp
    have hsn : p.sn = e.vrR := hsn
    rw [hsn, amDiffSn_eq] at hpos
    omega

/-- The distances from VR(R) of what is missing up to the last PDU in the list. -/
def missing (arrived : List ℕ) (nb : ℕ) (e : AmRxEntity) : List ℕ :=
  (List.range' 0 ((e.toReceiver nb).reach 0 (e.toReceiver nb).receiverBuffer)).filter fun d ↦
    e.reassembled.length + d ∉ arrived

/-- A PDU is asked for as a whole, if it has not arrived. -/
theorem InOrder.pduRequests_eq (h : e.InOrder content arrived) (nb : ℕ) {d : ℕ} (hd : d < 1024) :
    AmReceiver.pduRequests (snAt e.vrR d) ((e.toReceiver nb).receiverBuffer.filter fun p ↦
      p.pduInfo.sn = snAt e.vrR d) =
        if e.reassembled.length + d ∉ arrived then [Request.pdu (snAt e.vrR d)] else [] := by
  cases hstored : (e.toReceiver nb).receiverBuffer.filter fun p ↦ p.pduInfo.sn = snAt e.vrR d with
  | nil =>
    rw [if_pos]
    · rfl
    · rw [h.holds.mem_iff]
      rintro (hlt | ⟨p, hp, heq⟩)
      · omega
      · have hsn : p.sn = snAt e.vrR d := by
          rw [← snAt_amDiffSn h.kept.vrR_lt (h.holds.block p hp).1]
          exact congrArg (snAt e.vrR) (by omega)
        have hmem : p.toAmRxPdu ∈ (e.toReceiver nb).receiverBuffer := List.mem_map_of_mem hp
        exact List.filter_eq_nil_iff.mp hstored _ hmem (decide_eq_true hsn)
  | cons q rest =>
    have hq : q ∈ (e.toReceiver nb).receiverBuffer.filter fun p ↦ p.pduInfo.sn = snAt e.vrR d := by
      rw [hstored]
      exact List.mem_cons_self
    obtain ⟨hq, hsn⟩ := List.mem_filter.mp hq
    obtain ⟨p, hp, rfl⟩ := List.mem_map.mp hq
    have hsn : p.sn = snAt e.vrR d := of_decide_eq_true hsn
    have hmarked : p.allSegmentsReceived = true := (h.holds.block p hp).2.1.marked
    rw [AmReceiver.pduRequests, if_pos hmarked, if_neg]
    rw [not_not, h.holds.mem_iff, ← amDiffSn_snAt h.kept.vrR_lt hd, ← hsn]
    exact Or.inr ⟨p, hp, rfl⟩

theorem InOrder.missingRequests_eq (h : e.InOrder content arrived) (nb : ℕ) :
    (e.toReceiver nb).missingRequests = (e.missing arrived nb).map fun d ↦ .pdu (snAt e.vrR d) := by
  have hreach := (e.toReceiver nb).reach_lt
  have hall (d : ℕ) (hd : d ∈ List.range' 0 ((e.toReceiver nb).reach 0 (e.toReceiver nb).receiverBuffer)) :
      d < 1024 := by
    have hlt := List.mem_range'_1.mp hd
    omega
  rw [AmReceiver.missingRequests, AmReceiver.requests, missing]
  generalize List.range' 0 ((e.toReceiver nb).reach 0 (e.toReceiver nb).receiverBuffer) = ds at hall
  induction ds with
  | nil => rfl
  | cons d ds ih =>
    obtain ⟨hd, hall⟩ := List.forall_mem_cons.mp hall
    have hone := h.pduRequests_eq nb hd
    rw [List.flatMap_cons, ih hall, List.filter_cons]
    split_ifs with hmissing
    · rw [if_pos (of_decide_eq_true hmissing)] at hone
      exact congrArg (· ++ _) hone
    · rw [if_neg fun hno ↦ hmissing (decide_eq_true hno)] at hone
      exact congrArg (· ++ _) hone

/-- A report does not go beyond the last PDU in the list. -/
theorem InOrder.reach_le (h : e.InOrder content arrived) {built : ℕ} (hbuilt : ∀ k ∈ arrived, k < built) (nb : ℕ) :
    e.reassembled.length + (e.toReceiver nb).reach 0 (e.toReceiver nb).receiverBuffer ≤ built ∧
      (e.toReceiver nb).reach 0 (e.toReceiver nb).receiverBuffer ≤ 512 := by
  rw [AmReceiver.reach]
  cases hlast : (e.toReceiver nb).receiverBuffer.getLast? with
  | none =>
    refine ⟨Nat.le_of_not_lt fun hlt ↦ ?_, Nat.zero_le _⟩
    have hmem := h.mem_of_lt (k := built) (by simpa using hlt)
    exact lt_irrefl _ (hbuilt built hmem)
  | some q =>
    obtain ⟨p, hp, rfl⟩ := List.mem_map.mp (List.mem_of_getLast? hlast)
    have hlt := hbuilt _ ((h.holds.mem_iff _).mpr (Or.inr ⟨p, hp, rfl⟩))
    have hstored : e.offset p.sn < e.offset e.vrH := h.kept.stored p hp
    have hvrH := h.kept.vrH_le
    have hoffset : (e.toReceiver nb).offset p.pduInfo.sn = amDiffSn p.sn e.vrR := rfl
    have hsame : e.offset p.sn = amDiffSn p.sn e.vrR := rfl
    dsimp only
    omega

/-- What is acknowledged has arrived, and what is asked for has not. -/
theorem InOrder.sendStatusPdu {built : ℕ} (h : e.InOrder content arrived)
    (hsize : ∀ k, 0 < size k ∧ size k ≤ rlcAmStatusPduSoEndAllBytes)
    (hcontent : ∀ k info data, content k info data → info.so = 0 ∧ info.payloadSize = size k) (hnb : 2 ≤ nb)
    (hbuilt : ∀ k ∈ arrived, k < built) :
    ∃ e' info info' c ds, (e.toReceiver nb).sendStatusPdu = some (e', info) ∧
      (ControlPduInfo.getControlPduInfos (ControlPduInfo.writeStatusPdu (fun _ ↦ 0) info).1
        (ControlPduInfo.writeStatusPdu (fun _ ↦ 0) info).2).1 = .ok info' ∧
      info'.Reports arrived built e.reassembled.length c ds := by
  obtain ⟨hreach, hwindow⟩ := h.reach_le hbuilt nb
  have hsorted : (e.missing arrived nb).Pairwise (· < ·) := List.Pairwise.filter _ List.pairwise_lt_range'
  have hmem (d : ℕ) : d ∈ e.missing arrived nb ↔
      d < (e.toReceiver nb).reach 0 (e.toReceiver nb).receiverBuffer ∧ e.reassembled.length + d ∉ arrived := by
    rw [missing, List.mem_filter, List.mem_range'_1, Nat.zero_add, decide_eq_true_iff]
    exact and_congr_left fun _ ↦ and_iff_right (Nat.zero_le d)
  obtain ⟨m, hfitting, hunmet⟩ := exists_take (fun d ↦ Request.pdu (snAt e.vrR d)) Request.bits Request.used
    (e.toReceiver nb).nackRoom (e.missing arrived nb)
  have hnacks : (e.toReceiver nb).fittingNacks =
      ((e.missing arrived nb).take m).map fun d ↦ Nack.ofPdu (snAt e.vrR d) := by
    rw [AmReceiver.fittingNacks, entries, h.missingRequests_eq, hfitting, List.filterMap_map]
    exact congrFun (List.filterMap_eq_map (f := fun d ↦ Nack.ofPdu (snAt e.vrR d))) _
  have hackSn : (e.toReceiver nb).fittingAckSn = snAt e.vrR
      (((e.missing arrived nb).drop m).head?.getD ((e.toReceiver nb).reach 0 (e.toReceiver nb).receiverBuffer)) := by
    rw [AmReceiver.fittingAckSn, h.missingRequests_eq, hunmet]
    cases ((e.missing arrived nb).drop m).head? <;> rfl
  have hlength : ((e.missing arrived nb).take m).length ≤
      (e.toReceiver nb).reach 0 (e.toReceiver nb).receiverBuffer := by
    rw [List.length_take]
    refine (Nat.min_le_right _ _).trans ((List.length_filter_le _ _).trans ?_)
    rw [List.length_range']
  generalize (e.toReceiver nb).reach 0 (e.toReceiver nb).receiverBuffer = reach at hreach hwindow hmem hackSn hlength
  have happend := List.take_append_drop m (e.missing arrived nb)
  rw [← happend] at hsorted
  have hlist (d : ℕ) : d ∈ (e.missing arrived nb).take m ∨ d ∈ (e.missing arrived nb).drop m ↔
      d < reach ∧ e.reassembled.length + d ∉ arrived := by
    rw [← List.mem_append, happend, hmem]
  generalize (e.missing arrived nb).take m = ds at hsorted hlist hnacks hlength
  generalize (e.missing arrived nb).drop m = rest at hsorted hlist hackSn
  have hfew : (e.toReceiver nb).fittingNacks.length ≤ 512 := by
    rw [hnacks, List.length_map]
    exact hlength.trans hwindow
  obtain ⟨e', info, hsend, hack, hnackList, -⟩ :=
    (h.consistent hsize hcontent nb).sendStatusPdu_of_le hnb (hfew.trans (by decide))
  have hsent : (info.nackList.map fun n ↦ { n with e1 := true }) = (ds.map (snAt e.vrR)).map Nack.ofPdu := by
    rw [hnackList, AmReceiver.map_sent, hnacks, List.map_map]
    exact List.map_congr_left fun _ _ ↦ rfl
  have hsame : info.nackList.length ≤ 512 := by
    rw [hnacks, List.length_map] at hfew
    rw [← List.length_map, hsent, List.length_map, List.length_map]
    exact hfew
  obtain ⟨data, hwrite, htype, hackField, hext, hwritten⟩ := ControlPduInfo.writeStatusPdu_written info
  have hextended : Nack.Extended info.nackList := by
    rw [hnackList]
    exact Nack.extended_clearLastE1 fun _ ↦ AmReceiver.e1_of_mem_fittingNacks
  have hread : (ControlPduInfo.getControlPduInfos (ControlPduInfo.writeStatusPdu (fun _ ↦ 0) info).1
      (ControlPduInfo.writeStatusPdu (fun _ ↦ 0) info).2).1 =
        .ok ⟨info.ackSn, !info.nackList.isEmpty, info.nackList.map Nack.received, info.ackSn_lt⟩ := by
    rw [hwrite, ControlPduInfo.getControlPduInfos_fields _ info.ackSn_lt htype hackField hext hwritten
      (hsame.trans (by decide)) hextended]
  have hsn (d : ℕ) : snAt e.vrR d = snAt e.reassembled.length d := by
    rw [h.vrR_eq, snAt, snAt]
    omega
  obtain ⟨hsns, hwhole⟩ := Nack.received_ofPdu hsent
  -- the PDU that VR(R) tells is the first one that is missing
  have hhead : (ds ++ rest).headD reach = 0 := by
    rcases Nat.eq_zero_or_pos reach with hzero | hpos
    · have hnil : ds ++ rest = [] := by
        refine List.eq_nil_iff_forall_not_mem.mpr fun d hd ↦ ?_
        have hlt := ((hlist d).mp (List.mem_append.mp hd)).1
        omega
      rw [hnil]
      exact hzero
    · have hzero : 0 ∈ ds ++ rest := List.mem_append.mpr ((hlist 0).mpr ⟨hpos, h.length_not_mem⟩)
      exact Nat.le_zero.mp (headD_le_of_mem hsorted hzero)
  obtain ⟨hds, hrest, hbefore⟩ := List.pairwise_append.mp hsorted
  have hle : rest.headD reach ≤ reach := headD_le_of_forall fun r hr ↦ ((hlist r).mp (Or.inr hr)).1.le
  refine ⟨e', info, _, rest.headD reach, ds, hsend, hread, ?_⟩
  refine ⟨?_, ?_, hwhole, hds, fun d hd ↦ ?_, ?_, by omega, fun d hd ↦ ?_, fun d hlt hd ↦ ?_⟩
  · change info.ackSn = _
    rw [hack, hackSn, hsn, List.headD_eq_head?_getD]
  · change (info.nackList.map Nack.received).map Nack.nackSn = _
    rw [hsns, List.map_map]
    refine List.map_congr_left fun d _ ↦ ?_
    rw [← hsn d]
    exact Nat.mod_eq_of_lt (snAt_lt e.vrR d)
  · cases rest with
    | nil => exact ((hlist d).mp (Or.inl hd)).1
    | cons r rest => exact hbefore d hd r List.mem_cons_self
  · rw [← hhead]
    cases ds <;> rfl
  · exact ((hlist d).mp (Or.inl hd)).2
  · by_contra hnot
    rcases (hlist d).mpr ⟨by omega, hnot⟩ with hmem | hmem
    · exact hd hmem
    · exact absurd (headD_le_of_mem hrest hmem) (Nat.not_le.mpr hlt)

end AmRxEntity

namespace AmStream

variable {l : AmStream} {msDuration nb : ℕ}

/-- The size of the payload of the `k`th PDU. -/
def payloadSize (sent : List SentFrame) (k : ℕ) : ℕ := (sent[k]?.map (·.frame.payload.length)).getD 1

/-- The report begins with the first PDU that has not arrived. -/
theorem InStep.report (h : l.InStep) (hnb : 2 ≤ nb) :
    ∃ e' info info' c ds, (l.receiver.toReceiver nb).sendStatusPdu = some (e', info) ∧
      (ControlPduInfo.getControlPduInfos (ControlPduInfo.writeStatusPdu (fun _ ↦ 0) info).1
        (ControlPduInfo.writeStatusPdu (fun _ ↦ 0) info).2).1 = .ok info' ∧
      info'.Reports l.arrived l.sent.length l.receiver.reassembled.length c ds := by
  have hsize (k : ℕ) : 0 < payloadSize l.sent k ∧ payloadSize l.sent k ≤ rlcAmStatusPduSoEndAllBytes := by
    rw [payloadSize]
    cases hp : l.sent[k]? with
    | none => exact ⟨Nat.one_pos, by decide⟩
    | some p =>
      have hlast : 0 < p.frame.last.length := (h.fit k p hp).last_pos
      have hsize := h.sizes p (List.mem_of_getElem? hp)
      have hlength := p.frame.payload_length
      have hmax : rlcAmStatusPduSoEndAllBytes = 2 ^ 15 - 1 := rfl
      rw [Option.map_some, Option.getD_some]
      omega
  refine h.inOrder.sendStatusPdu hsize (fun k info data hcontent ↦ ?_) hnb fun k hk ↦ h.arrived_lt hk
  obtain ⟨p, hp, hcarries⟩ := hcontent
  rw [payloadSize, hp]
  exact ⟨hcarries.so, hcarries.payloadSize⟩

/-- In every run, and whatever the grant is, the receiver can report, and its report holds of what has arrived. -/
theorem report_arrived (h : GuardedRun handle Allowed (start msDuration) l) (hnb : 2 ≤ nb) :
    ∃ e' info info' n c ds, (l.receiver.toReceiver nb).sendStatusPdu = some (e', info) ∧
      (ControlPduInfo.getControlPduInfos (ControlPduInfo.writeStatusPdu (fun _ ↦ 0) info).1
        (ControlPduInfo.writeStatusPdu (fun _ ↦ 0) info).2).1 = .ok info' ∧
      (∀ k < n, k ∈ l.arrived) ∧ n ∉ l.arrived ∧ info'.Reports l.arrived l.sent.length n c ds := by
  have hstep := inStep_of_run h
  obtain ⟨e', info, info', c, ds, hsend, hread, hreports⟩ := hstep.report hnb
  exact ⟨e', info, info', _, c, ds, hsend, hread, fun k hk ↦ hstep.inOrder.mem_of_lt hk,
    hstep.inOrder.length_not_mem, hreports⟩

/-- Of three PDUs the second is missing. -/
def gapped : List AmStreamEvent :=
  [.send ⟨true, ⟨[], [1, 2], false⟩⟩, .send ⟨false, ⟨[[3]], [4], false⟩⟩, .send ⟨false, ⟨[], [5], true⟩⟩,
    .deliver 0 2 true, .deliver 1 0 false]

theorem gapped_report :
    ∃ l, gapped.foldlM (fun (l : AmStream) x ↦ if l.Allowed x then handle x l else none) (start 35) = some l ∧
      ∃ e' info info' n c ds, (l.receiver.toReceiver 8).sendStatusPdu = some (e', info) ∧
        (ControlPduInfo.getControlPduInfos (ControlPduInfo.writeStatusPdu (fun _ ↦ 0) info).1
          (ControlPduInfo.writeStatusPdu (fun _ ↦ 0) info).2).1 = .ok info' ∧
        (∀ k < n, k ∈ l.arrived) ∧ n ∉ l.arrived ∧ info'.Reports l.arrived l.sent.length n c ds := by
  have hsome : (gapped.foldlM (fun (l : AmStream) x ↦ if l.Allowed x then handle x l else none)
      (start 35)).isSome = true := by
    decide +kernel
  obtain ⟨l, hl⟩ := Option.isSome_iff_exists.mp hsome
  exact ⟨l, hl, report_arrived (.of_checked hl) (by decide)⟩

end AmStream

end EdgeSlice.Rlc
