import EdgeSlice.GuardedRun
import EdgeSlice.Rlc.AmRxWalks

namespace EdgeSlice.Rlc

/-- What the receiving side of an entity reacts to. -/
inductive AmRxEvent
  | data (now : ℕ) (tb : AmRxBlock)
  | timer (now : ℕ)

namespace AmRxEntity

open AmRxBlock

variable {e e' : AmRxEntity} {p tb : AmRxBlock} {before after next list : List AmRxBlock} {now r m h x : ℕ}

/-- `rlc_am_init` and `rlc_am_init_timer_reordering`. -/
def init (msDuration : ℕ) : AmRxEntity where
  receiverBuffer := []
  vrR := 0
  vrMr := 0 + rlcAmWindowSize
  vrX := rlcSnUndefined
  vrMs := 0
  vrH := 0
  tReordering := ⟨0, 0, msDuration, false, false⟩
  statusRequested := 0
  snStatusTriggeredDelayed := signedSnUndefined
  reassembled := []

def step : AmRxEvent → AmRxEntity → Option AmRxEntity
  | .data now tb => receiveProcessDataPdu now tb
  | .timer now => checkTimerReordering now

/-- What is left after some events. -/
def play (events : List AmRxEvent) (e : AmRxEntity) : Option AmRxEntity := events.foldlM (fun e x ↦ step x e) e

/-- The list before a received block which has been put into it, the block and the list behind it, after
the check of all byte segments. -/
def arrival (tb : AmRxBlock) (e : AmRxEntity) : Option (List AmRxBlock × AmRxBlock × List AmRxBlock) :=
  match e.rxListCheckDuplicateInsertPdu { tb with allSegmentsReceived := false } with
  | some (.placed before tb after) => some (checkAllByteSegments before tb after)
  | _ => none

/-- VR(X) lies between VR(R) and VR(H). -/
structure Supervises (e : AmRxEntity) : Prop where
  vrX_lt : e.vrX < 1024
  pos : 0 < e.offset e.vrX
  le : e.offset e.vrX ≤ e.offset e.vrH

/-- What every step keeps, wherever VR(MS) is. -/
structure Kept (e : AmRxEntity) : Prop where
  vrR_lt : e.vrR < 1024
  vrMr_eq : e.vrMr = snAt e.vrR 512
  vrH_lt : e.vrH < 1024
  vrMs_lt : e.vrMs < 1024
  vrH_le : e.offset e.vrH ≤ 512
  blocks : SnSorted e.vrR e.receiverBuffer
  stored : ∀ p ∈ e.receiverBuffer, e.offset p.sn < e.offset e.vrH
  running : e.tReordering.running = true → e.Supervises

section Reorder

/-- The STATUS requests are of no influence on the window. -/
theorem triggerStatus_eq (tb : AmRxBlock) (status : AmRxPduStatus) (e : AmRxEntity) : ∃ a b,
    e.triggerStatus tb status = { e with statusRequested := a, snStatusTriggeredDelayed := b } := by
  unfold triggerStatus
  dsimp only
  split_ifs <;> exact ⟨_, _, rfl⟩

theorem start_running {t : AmTimer} (hrunning : t.running = false) (hduration : t.msDuration ≠ 0) :
    (t.start now).running = true := by
  rw [AmTimer.start, if_pos ⟨hrunning, Nat.pos_of_ne_zero hduration⟩]

theorem start_msDuration (t : AmTimer) : (t.start now).msDuration = t.msDuration := by
  rw [AmTimer.start]
  split_ifs <;> rfl

/-- VR(X) is at VR(R) or has left the window. -/
theorem isBehind_iff (hvrR : e.vrR < 1024) (hvrX : e.vrX < 1024) (hvrMr : e.vrMr = snAt e.vrR 512) :
    (e.vrX = e.vrR ∨ ¬amSnInWindow e.vrX e.vrR ∧ e.vrX ≠ e.vrMr) ↔ e.offset e.vrX = 0 ∨ 512 < e.offset e.vrX := by
  have hin : amSnInWindow e.vrX e.vrR = decide (e.offset e.vrX < 512) := rfl
  rw [hin, decide_eq_true_iff, hvrMr, snAt, offset, amDiffSn_eq]
  omega

/-- What the timer of the received block is like before t-Reordering is looked at. -/
structure Moved (e : AmRxEntity) : Prop where
  vrR_lt : e.vrR < 1024
  vrMr_eq : e.vrMr = snAt e.vrR 512
  vrH_lt : e.vrH < 1024
  running : e.tReordering.running = true →
    e.vrX < 1024 ∧ (e.Supervises ∨ e.offset e.vrX = 0 ∨ 512 < e.offset e.vrX)

/-- What `reorder` does. -/
structure Reordered (e e' : AmRxEntity) : Prop where
  receiverBuffer_eq : e'.receiverBuffer = e.receiverBuffer
  vrR_eq : e'.vrR = e.vrR
  vrMr_eq : e'.vrMr = e.vrMr
  vrH_eq : e'.vrH = e.vrH
  vrMs : e'.vrMs = e.vrMs ∨ e'.vrMs = e.vrH
  msDuration_eq : e'.tReordering.msDuration = e.tReordering.msDuration
  running : e'.tReordering.running = true → e'.Supervises
  started : e.vrH ≠ e.vrR → e.tReordering.msDuration ≠ 0 → e'.tReordering.running = true
  vrX : e'.vrX = rlcSnUndefined ∨ e'.Supervises ∨
    e'.vrX = e.vrX ∧ e.vrH = e.vrR ∧ e.tReordering.running = false ∧
      (e.tReordering.msDuration ≠ 0 ∨ ¬(e.vrX = e.vrR ∨ ¬amSnInWindow e.vrX e.vrR ∧ e.vrX ≠ e.vrMr))

theorem Moved.reordered (h : e.Moved) (now : ℕ) : e.Reordered (e.reorder now) := by
  have hsupervises (hne : e.vrH ≠ e.vrR) : 0 < e.offset e.vrH := by
    refine Nat.pos_of_ne_zero fun hzero ↦ hne ?_
    rw [← snAt_amDiffSn h.vrR_lt h.vrH_lt, show amDiffSn e.vrH e.vrR = 0 from hzero, snAt_zero h.vrR_lt]
  rw [reorder]
  by_cases hstop : (e.tReordering.running = true ∨ e.tReordering.msDuration = 0 ∧ e.vrX ≠ rlcSnUndefined) ∧
      (e.vrX = e.vrR ∨ ¬amSnInWindow e.vrX e.vrR ∧ e.vrX ≠ e.vrMr)
  · rw [if_pos hstop]
    dsimp only
    split_ifs with hgo hduration
    · refine ⟨rfl, rfl, rfl, rfl, .inl rfl, start_msDuration _, fun _ ↦ ⟨h.vrH_lt, hsupervises hgo.2, le_rfl⟩,
        fun _ _ ↦ start_running rfl hduration, .inr (.inl ⟨h.vrH_lt, hsupervises hgo.2, le_rfl⟩)⟩
    · refine ⟨rfl, rfl, rfl, rfl, .inr rfl, rfl, fun hrun ↦ Bool.noConfusion hrun, fun _ hne ↦ absurd hne hduration,
        .inr (.inl ⟨h.vrH_lt, hsupervises hgo.2, le_rfl⟩)⟩
    · have heq : e.vrH = e.vrR := not_not.mp fun hne ↦ hgo ⟨rfl, hne⟩
      exact ⟨rfl, rfl, rfl, rfl, .inl rfl, rfl, fun hrun ↦ Bool.noConfusion hrun, fun hne ↦ absurd heq hne, .inl rfl⟩
  · rw [if_neg hstop]
    split_ifs with hgo hduration
    · refine ⟨rfl, rfl, rfl, rfl, .inl rfl, start_msDuration _, fun _ ↦ ⟨h.vrH_lt, hsupervises hgo.2, le_rfl⟩,
        fun _ _ ↦ start_running hgo.1 hduration, .inr (.inl ⟨h.vrH_lt, hsupervises hgo.2, le_rfl⟩)⟩
    · refine ⟨rfl, rfl, rfl, rfl, .inr rfl, rfl, fun hrun ↦ ?_, fun _ hne ↦ absurd hne hduration,
        .inr (.inl ⟨h.vrH_lt, hsupervises hgo.2, le_rfl⟩)⟩
      have hrun' : e.tReordering.running = true := hrun
      rw [hgo.1] at hrun'
      cases hrun'
    · have hrunning (hrun : e.tReordering.running = true) : e.Supervises := by
        obtain ⟨hvrX, hcases⟩ := h.running hrun
        refine hcases.resolve_right fun hbehind ↦ hstop ⟨.inl hrun, ?_⟩
        exact (isBehind_iff h.vrR_lt hvrX h.vrMr_eq).mpr hbehind
      refine ⟨rfl, rfl, rfl, rfl, .inl rfl, rfl, hrunning, fun hne _ ↦ ?_, ?_⟩
      · exact Bool.eq_true_of_not_eq_false fun hrun ↦ hgo ⟨hrun, hne⟩
      · cases hrun : e.tReordering.running with
        | true => exact .inr (.inl (hrunning hrun))
        | false =>
          have heq : e.vrH = e.vrR := not_not.mp fun hne ↦ hgo ⟨hrun, hne⟩
          by_cases hundefined : e.vrX = rlcSnUndefined
          · exact .inl hundefined
          · refine .inr (.inr ⟨rfl, heq, rfl, ?_⟩)
            by_cases hzero : e.tReordering.msDuration = 0
            · exact .inr fun hbehind ↦ hstop ⟨.inr ⟨hzero, hundefined⟩, hbehind⟩
            · exact .inl hzero

end Reorder

section Accept

theorem SnSorted.of_key {vrR : ℕ} {rest : List AmRxBlock} (h : SnSorted vrR rest)
    (hsub : (list.map key).Sublist (rest.map key)) : SnSorted vrR list where
  sn_lt p hp := by
    obtain ⟨q, hq, hinfo, -⟩ := exists_of_key hsub hp
    rw [AmRxBlock.sn, ← hinfo]
    exact h.sn_lt q hq
  sorted := by
    have hsorted : (rest.map key).Pairwise fun a b ↦ amDiffSn a.1.sn vrR ≤ amDiffSn b.1.sn vrR :=
      List.pairwise_map.mpr h.sorted
    have hsorted' : (list.map key).Pairwise fun a b ↦ amDiffSn a.1.sn vrR ≤ amDiffSn b.1.sn vrR := hsorted.sublist hsub
    rw [List.pairwise_map] at hsorted'
    exact hsorted'
  uniform p hp q hq hsn := by
    obtain ⟨p', hp', hinfo, hmarked⟩ := exists_of_key hsub hp
    obtain ⟨q', hq', hinfo', hmarked'⟩ := exists_of_key hsub hq
    rw [← hmarked, ← hmarked']
    refine h.uniform p' hp' q' hq' ?_
    rw [AmRxBlock.sn, AmRxBlock.sn, hinfo, hinfo']
    exact hsn

/-- The order does not depend on where VR(R) is, as long as the blocks lie behind it. -/
theorem SnSorted.rebase {vrR : ℕ} (h : SnSorted vrR list) (hvrR : vrR < 1024)
    (hge : ∀ p ∈ list, r ≤ amDiffSn p.sn vrR) : SnSorted (snAt vrR r) list where
  sn_lt := h.sn_lt
  sorted := h.sorted.imp_of_mem fun {p q} hp hq hle ↦ by
    rw [amDiffSn_snAt_add (h.sn_lt p hp) hvrR (hge p hp) rfl, amDiffSn_snAt_add (h.sn_lt q hq) hvrR (hge q hq) rfl]
    exact Nat.sub_le_sub_right hle r
  uniform := h.uniform

/-- VR(H) is moved behind the received block. -/
theorem vrH_spec (hk : e.Kept) (hs : amDiffSn tb.sn e.vrR < 512) (htb : tb.sn < 1024) : ∃ h,
    (if amDiffSn tb.sn e.vrR ≥ amDiffSn e.vrH e.vrR then amNextSn tb.sn else e.vrH) = snAt e.vrR h ∧
      h ≤ 512 ∧ e.offset e.vrH ≤ h ∧ e.offset tb.sn < h ∧ (h = e.offset e.vrH ∨ h = e.offset tb.sn + 1) := by
  have hH := hk.vrH_le
  by_cases hge : amDiffSn tb.sn e.vrR ≥ amDiffSn e.vrH e.vrR
  · rw [if_pos hge]
    refine ⟨e.offset tb.sn + 1, ?_, hs, Nat.le_succ_of_le hge, Nat.lt_succ_self _, .inr rfl⟩
    rw [← amNextSn_snAt, offset, snAt_amDiffSn hk.vrR_lt htb]
  · rw [if_neg hge]
    refine ⟨e.offset e.vrH, ?_, hH, le_rfl, not_le.mp hge, .inl rfl⟩
    rw [offset, snAt_amDiffSn hk.vrR_lt hk.vrH_lt]

/-- A walk over marked PDUs does not get behind the stored ones. -/
theorem le_of_marked {j k : ℕ} (hlt : ∀ p ∈ next, amDiffSn p.sn r < h) (hjh : j ≤ h)
    (hpassed : ∀ i, j ≤ i → i < k → Marked r next i) : k ≤ h := by
  by_contra hkh
  obtain ⟨p, hp, hi, -⟩ := hpassed (k - 1) (by omega) (by omega)
  have hlt := hlt p hp
  omega

theorem snAt_inj (hr : r < 1024) (hm : m < 1024) (hh : h < 1024) (heq : snAt r m = snAt r h) : m = h := by
  by_contra hne
  exact snAt_ne hr hm hh hne heq

/-- VR(R) after a block has been received. -/
theorem vrR_spec (hvrR : e.vrR < 1024) (hh : h ≤ 512)
    (hlt : ∀ p ∈ tb :: next, amDiffSn p.sn e.vrR < h) : ∃ r ≤ h,
    (if tb.sn = e.vrR ∧ tb.allSegmentsReceived = true then updateVrR e.vrR (tb :: next) else e.vrR) = snAt e.vrR r ∧
      (∀ i < r, Marked e.vrR (tb :: next) i) ∧ (r ≠ 0 → tb.sn = e.vrR ∧ tb.allSegmentsReceived = true) := by
  have hvrR' : snAt e.vrR 0 = e.vrR := snAt_zero hvrR
  by_cases hcomplete : tb.sn = e.vrR ∧ tb.allSegmentsReceived = true
  · obtain ⟨r, -, hr, heq, hpassed⟩ := updateVrR_spec hvrR (Nat.zero_le 512) fun p hp ↦ (hlt p hp).trans_le hh
    rw [hvrR'] at heq
    rw [if_pos hcomplete]
    exact ⟨r, le_of_marked hlt (Nat.zero_le h) hpassed, heq, fun i hi ↦ hpassed i (Nat.zero_le i) hi, fun _ ↦ hcomplete⟩
  · rw [if_neg hcomplete]
    exact ⟨0, Nat.zero_le h, hvrR'.symm, fun i hi ↦ absurd hi (Nat.not_lt_zero i), fun hne ↦ absurd rfl hne⟩

/-- VR(MS) moves on to a PDU of the window if the block is of the PDU VR(MS). -/
theorem vrMs_spec (hvrR : e.vrR < 1024) (hvrMs : e.vrMs < 1024) (hh : h ≤ 512)
    (hlt : ∀ p ∈ tb :: next, amDiffSn p.sn e.vrR < h) : ∃ m < 1024,
    (if tb.sn = e.vrMs ∧ tb.allSegmentsReceived = true then updateVrMs (snAt e.vrR h) e.vrMs (tb :: next)
      else e.vrMs) = snAt e.vrR m ∧ e.offset e.vrMs ≤ m ∧ (m = e.offset e.vrMs ∨ m ≤ h) := by
  have hvrMs' : snAt e.vrR (e.offset e.vrMs) = e.vrMs := snAt_amDiffSn hvrR hvrMs
  by_cases hcomplete : tb.sn = e.vrMs ∧ tb.allSegmentsReceived = true
  · have htb := hlt tb List.mem_cons_self
    rw [hcomplete.1] at htb
    obtain ⟨m, hm, hm512, heq, hpassed⟩ := updateVrMs_spec (h := snAt e.vrR h) hvrR
      (show e.offset e.vrMs ≤ 512 from htb.le.trans hh) fun p hp ↦ (hlt p hp).trans_le hh
    rw [hvrMs'] at heq
    rw [if_pos hcomplete]
    exact ⟨m, by omega, heq, hm, .inr (le_of_marked hlt htb.le hpassed)⟩
  · rw [if_neg hcomplete]
    exact ⟨e.offset e.vrMs, amDiffSn_lt _ _, hvrMs'.symm, le_rfl, .inl rfl⟩

/-- From VR(R) on, VR(MS) gets over a row of complete PDUs of one block each. -/
theorem le_vrMs (hvrR : e.vrR < 1024) (hsorted : SnSorted e.vrR (tb :: next)) (hh : h ≤ 512)
    (hlt : ∀ p ∈ tb :: next, amDiffSn p.sn e.vrR < h) (hvrMs : e.vrMs = e.vrR) (hr : r ≤ h)
    (hpassed : ∀ i < r, Marked e.vrR (tb :: next) i)
    (hsingle : ∀ i, i + 1 < r → ((tb :: next).filter fun p ↦ amDiffSn p.sn e.vrR = i).length ≤ 1) (hm : m < 1024)
    (heq : updateVrMs (snAt e.vrR h) e.vrMs (tb :: next) = snAt e.vrR m) : r ≤ m := by
  have hn (i : ℕ) (hi : i < r) (hend : snAt e.vrR (i + 1) = snAt e.vrR h) : r = i + 1 := by
    have hih := snAt_inj hvrR (by omega) (by omega) hend
    omega
  obtain ⟨k, hrk, -, hk, hkEq⟩ := le_updateVrMs (h := snAt e.vrR h) hvrR (Nat.zero_le 512)
    (fun p hp ↦ ⟨hsorted.sn_lt p hp, (hlt p hp).trans_le hh⟩) hsorted.sorted hsorted.uniform (fun p _ ↦ Nat.zero_le _)
    (fun i _ hi ↦ hpassed i hi) (fun i _ hi ↦ hsingle i hi) hn
  rw [hvrMs] at heq
  rw [snAt_zero hvrR, heq] at hkEq
  rw [snAt_inj hvrR hm (by omega) hkEq]
  exact hrk

/-- The state before t-Reordering is looked at, when the state variables have moved. -/
def moveTo (list : List AmRxBlock) (vrR vrMr vrMs vrH : ℕ) (e : AmRxEntity) : AmRxEntity :=
  { e with receiverBuffer := list, vrH := vrH, vrMs := vrMs, vrR := vrR, vrMr := vrMr }

theorem reorder_receiverBuffer (now : ℕ) (e : AmRxEntity) : (e.reorder now).receiverBuffer = e.receiverBuffer := by
  rw [reorder]
  split_ifs <;> rfl

theorem reorder_reassembled (now : ℕ) (e : AmRxEntity) : (e.reorder now).reassembled = e.reassembled := by
  rw [reorder]
  split_ifs <;> rfl

/-- `accept` for a block of the PDU VR(R). -/
theorem accept_vrR {vrR vrMr vrMs vrH : ℕ} (hsn : tb.sn = e.vrR)
    (hvrH : (if amDiffSn tb.sn e.vrR ≥ amDiffSn e.vrH e.vrR then amNextSn tb.sn else e.vrH) = vrH)
    (hvrMs : (if tb.sn = e.vrMs ∧ tb.allSegmentsReceived = true then updateVrMs vrH e.vrMs (tb :: next) else e.vrMs) = vrMs)
    (hvrR : (if tb.allSegmentsReceived = true then updateVrR e.vrR (tb :: next) else e.vrR) = vrR)
    (hvrMr : (if tb.allSegmentsReceived = true then (vrR + rlcAmWindowSize) &&& 0x3FF else e.vrMr) = vrMr)
    (ha : e.accept now tb next list = some e') : ∃ list' reassemble reassembled a b,
      rxCheckVrReassemble vrR list = some (list', reassemble) ∧
      e' = { (moveTo list' vrR vrMr vrMs vrH e).reorder now with
        receiverBuffer := if reassemble then (rxListReassembleRlcSdus list').1 else list'
        reassembled := reassembled, statusRequested := a, snStatusTriggeredDelayed := b } := by
  have hpair : (if tb.allSegmentsReceived = true then
      (updateVrR e.vrR (tb :: next), (updateVrR e.vrR (tb :: next) + rlcAmWindowSize) &&& 0x3FF)
    else (e.vrR, e.vrMr)) = (vrR, vrMr) := by
    rw [← hvrR] at hvrMr
    rw [← hvrMr, ← hvrR]
    split_ifs <;> rfl
  rw [accept] at ha
  dsimp only at ha
  rw [if_pos hsn, hvrH, hvrMs, hpair] at ha
  obtain ⟨⟨list', reassemble⟩, hcheck, hresult⟩ := Option.map_eq_some_iff.mp ha
  obtain ⟨a, b, hstatus⟩ := triggerStatus_eq tb .ok ((moveTo list' vrR vrMr vrMs vrH e).reorder now)
  dsimp only at hresult
  rw [← moveTo, hstatus] at hresult
  refine ⟨list', reassemble, if reassemble = true then e.reassembled ++ (rxListReassembleRlcSdus list').2
    else e.reassembled, a, b, hcheck, ?_⟩
  have hlist : ((moveTo list' vrR vrMr vrMs vrH e).reorder now).receiverBuffer = list' := reorder_receiverBuffer _ _
  have hreassembled : ((moveTo list' vrR vrMr vrMs vrH e).reorder now).reassembled = e.reassembled :=
    reorder_reassembled _ _
  rw [← hresult]
  generalize (moveTo list' vrR vrMr vrMs vrH e).reorder now = moved at hlist hreassembled ⊢
  cases reassemble with
  | true =>
    simp only [if_true]
    rw [hlist, hreassembled]
  | false =>
    simp only [Bool.false_eq_true, if_false]
    rw [← hlist, ← hreassembled]

/-- How far the state variables have moved when a block has been accepted. -/
structure Accepted (e : AmRxEntity) (now : ℕ) (tb : AmRxBlock) (next : List AmRxBlock) (r m h : ℕ)
    (e' : AmRxEntity) : Prop where
  sorted : tb.allSegmentsReceived = true → SnSorted e.vrR (tb :: next)
  below : ∀ p ∈ tb :: next, amDiffSn p.sn e.vrR < h
  r_le : r ≤ h
  h_le : h ≤ 512
  h_eq : h = max (e.offset e.vrH) (e.offset tb.sn + 1)
  passed : ∀ i < r, Marked e.vrR (tb :: next) i
  complete : r ≠ 0 → tb.sn = e.vrR ∧ tb.allSegmentsReceived = true
  m_lt : m < 1024
  vrMs_eq : (if tb.sn = e.vrMs ∧ tb.allSegmentsReceived = true then updateVrMs (snAt e.vrR h) e.vrMs (tb :: next)
    else e.vrMs) = snAt e.vrR m
  result : ∃ (list₁ list' reassembled : List AmRxBlock) (a : ℕ) (b : ℤ),
    e' = { (moveTo list₁ (snAt e.vrR r) (snAt (snAt e.vrR r) 512) (snAt e.vrR m) (snAt e.vrR h) e).reorder now with
      receiverBuffer := list', reassembled := reassembled, statusRequested := a, snStatusTriggeredDelayed := b } ∧
    SnSorted e.vrR list' ∧ ∀ p ∈ list', r ≤ amDiffSn p.sn e.vrR ∧ amDiffSn p.sn e.vrR < h

/-- The blocks that are left when VR(R) has passed a row of marked PDUs. -/
theorem reassembled_spec {reassemble : Bool} {list₁ : List AmRxBlock} (hvrR : e.vrR < 1024) (hlist : SnSorted e.vrR list)
    (hlt : ∀ p ∈ list, amDiffSn p.sn e.vrR < h) (hr : r ≤ 512) (hpassed : ∀ i < r, Marked e.vrR list i)
    (hcheck : rxCheckVrReassemble (snAt e.vrR r) list = some (list₁, reassemble)) :
    SnSorted e.vrR (if reassemble then (rxListReassembleRlcSdus list₁).1 else list₁) ∧
      ∀ p ∈ if reassemble then (rxListReassembleRlcSdus list₁).1 else list₁,
        r ≤ amDiffSn p.sn e.vrR ∧ amDiffSn p.sn e.vrR < h := by
  obtain ⟨hkey, hreassemble⟩ := rxCheckVrReassemble_spec hcheck
  have hsub₁ : (list₁.map key).Sublist (list.map key) := by rw [hkey]
  have hsub : (list.map key).Sublist (list₁.map key) := by rw [hkey]
  have hlist₁ := hlist.of_key hsub₁
  have hlt₁ (p : AmRxBlock) (hp : p ∈ list₁) : amDiffSn p.sn e.vrR < h := by
    obtain ⟨q, hq, hinfo, -⟩ := exists_of_key hsub₁ hp
    have hlt := hlt q hq
    rwa [AmRxBlock.sn, hinfo] at hlt
  have hpassed₁ (i : ℕ) (hi : i < r) : Marked e.vrR list₁ i := by
    obtain ⟨p, hp, hpi, hmarked⟩ := hpassed i hi
    obtain ⟨q, hq, hinfo, hmarkedEq⟩ := exists_of_key hsub hp
    refine ⟨q, hq, ?_, hmarkedEq.trans hmarked⟩
    rw [AmRxBlock.sn, hinfo]
    exact hpi
  cases reassemble with
  | true =>
    simp only [if_true]
    have hsub := rxListReassembleRlcSdus_key list₁
    refine ⟨hlist₁.of_key hsub, fun p hp ↦ ⟨?_, ?_⟩⟩
    · refine le_of_mem_reassembled hvrR hlist₁.sn_lt hlist₁.sorted (fun q hq hqr ↦ ?_) (fun i _ hi ↦ ?_) hp
      · obtain ⟨x, hx, hxi, hmarked⟩ := hpassed₁ _ hqr
        rw [hlist₁.uniform q hq x hx (amDiffSn_inj hvrR (hlist₁.sn_lt q hq) (hlist₁.sn_lt x hx) hxi.symm)]
        exact hmarked
      · obtain ⟨x, hx, hxi, -⟩ := hpassed₁ i hi
        exact ⟨x, hx, hxi⟩
    · obtain ⟨q, hq, hinfo, -⟩ := exists_of_key hsub hp
      have hlt := hlt₁ q hq
      rwa [AmRxBlock.sn, hinfo] at hlt
  | false =>
    simp only [Bool.false_eq_true, if_false]
    refine ⟨hlist₁, fun p hp ↦ ⟨?_, hlt₁ p hp⟩⟩
    obtain ⟨q, hq, hinfo, -⟩ := exists_of_key hsub₁ hp
    rw [AmRxBlock.sn, ← hinfo]
    -- nothing is reassembled only if VR(R) is still the SN of the head
    cases list with
    | nil => cases hq
    | cons head list =>
      have hhead : head.sn = snAt e.vrR r := not_not.mp fun hne ↦ Bool.false_ne_true (hreassemble head rfl hne)
      have hoffset : amDiffSn head.sn e.vrR = r := by
        rw [hhead, amDiffSn_snAt hvrR (by omega)]
      rcases List.mem_cons.mp hq with rfl | hq
      · exact hoffset.ge
      · rw [← hoffset]
        exact (List.pairwise_cons.mp hlist.sorted).1 q hq

theorem accepted (hk : e.Kept) (hs : amDiffSn tb.sn e.vrR < 512) (hlist : SnSorted e.vrR list) (htb : tb.sn < 1024)
    (hbelow : ∀ p ∈ list, p.sn = tb.sn ∨ e.offset p.sn < e.offset e.vrH)
    (hnext : tb.allSegmentsReceived = true → ∃ before, list = before ++ tb :: next)
    (hsub : ∀ p ∈ next, p ∈ list)
    (ha : e.accept now tb next list = some e') : ∃ r m h, Accepted e now tb next r m h e' := by
  obtain ⟨h, hvrH, hh, hleH, hltH, hcases⟩ := vrH_spec hk hs htb
  have hltList (p : AmRxBlock) (hp : p ∈ list) : amDiffSn p.sn e.vrR < h := by
    rcases hbelow p hp with hsn | hlt
    · rw [hsn]
      exact hltH
    · exact lt_of_lt_of_le hlt hleH
  have hlt (p : AmRxBlock) (hp : p ∈ tb :: next) : amDiffSn p.sn e.vrR < h := by
    rcases List.mem_cons.mp hp with rfl | hp
    · exact hltH
    · exact hltList p (hsub p hp)
  obtain ⟨r, hrh, hrEq, hpassed, hcomplete⟩ := vrR_spec hk.vrR_lt hh hlt
  obtain ⟨m, hm, hmEq, -⟩ := vrMs_spec hk.vrR_lt hk.vrMs_lt hh hlt
  have hpassedList (i : ℕ) (hi : i < r) : Marked e.vrR list i := by
    obtain ⟨before, rfl⟩ := hnext (hcomplete (Nat.ne_zero_of_lt hi)).2
    obtain ⟨p, hp, hpi⟩ := hpassed i hi
    exact ⟨p, List.mem_append_right _ hp, hpi⟩
  have hmax : h = max (e.offset e.vrH) (e.offset tb.sn + 1) := by omega
  have hsorted (hmarked : tb.allSegmentsReceived = true) : SnSorted e.vrR (tb :: next) := by
    obtain ⟨before, rfl⟩ := hnext hmarked
    exact hlist.sublist (List.sublist_append_right _ _)
  refine ⟨r, m, h, hsorted, hlt, hrh, hh, hmax, hpassed, hcomplete, hm, hmEq, ?_⟩
  by_cases hsn : tb.sn = e.vrR
  · have hvrMr : (if tb.allSegmentsReceived = true then (snAt e.vrR r + rlcAmWindowSize) &&& 0x3FF else e.vrMr) =
        snAt (snAt e.vrR r) 512 := by
      by_cases hmarked : tb.allSegmentsReceived = true
      · rw [if_pos hmarked]
        exact Nat.and_two_pow_sub_one_eq_mod _ 10
      · rw [if_neg hmarked, hk.vrMr_eq, ← hrEq, if_neg fun h ↦ hmarked h.2]
    simp only [hsn, true_and] at hrEq
    obtain ⟨list₁, reassemble, reassembled, a, b, hcheck, hresult⟩ := accept_vrR hsn hvrH hmEq hrEq hvrMr ha
    obtain ⟨hsorted', hall⟩ := reassembled_spec hk.vrR_lt hlist hltList (by omega) hpassedList hcheck
    exact ⟨_, _, _, _, _, hresult, hsorted', hall⟩
  · have hr : r = 0 := by
      by_contra hne
      exact hsn (hcomplete hne).1
    rw [accept] at ha
    dsimp only at ha
    rw [if_neg hsn, hvrH, hmEq] at ha
    obtain ⟨a, b, hstatus⟩ := triggerStatus_eq tb .ok
      ((moveTo list e.vrR e.vrMr (snAt e.vrR m) (snAt e.vrR h) e).reorder now)
    have hresult := hstatus.symm.trans (Option.some.inj ha)
    refine ⟨list, list, e.reassembled, a, b, ?_, hlist, fun p hp ↦ ⟨hr ▸ Nat.zero_le _, hltList p hp⟩⟩
    rw [hr, snAt_zero hk.vrR_lt, ← hk.vrMr_eq, ← hresult]
    have hbuffer := reorder_receiverBuffer now (moveTo list e.vrR e.vrMr (snAt e.vrR m) (snAt e.vrR h) e)
    have hreassembled := reorder_reassembled now (moveTo list e.vrR e.vrMr (snAt e.vrR m) (snAt e.vrR h) e)
    generalize (moveTo list e.vrR e.vrMr (snAt e.vrR m) (snAt e.vrR h) e).reorder now = moved at *
    have hlistEq : moved.receiverBuffer = list := hbuffer
    have hreassembledEq : moved.reassembled = e.reassembled := hreassembled
    rw [← hlistEq, ← hreassembledEq]

/-- VR(H) and VR(X), seen from the new VR(R). -/
theorem Accepted.moved {m : ℕ} (ha : Accepted e now tb next r m h e') (hk : e.Kept) (list₁ : List AmRxBlock) :
    (moveTo list₁ (snAt e.vrR r) (snAt (snAt e.vrR r) 512) (snAt e.vrR m) (snAt e.vrR h) e).Moved ∧
      amDiffSn (snAt e.vrR h) (snAt e.vrR r) = h - r := by
  have hrh := ha.r_le
  have hh := ha.h_le
  have hoffset : amDiffSn (snAt e.vrR h) (snAt e.vrR r) = h - r := by
    have heq : amDiffSn (snAt e.vrR h) e.vrR = h := amDiffSn_snAt hk.vrR_lt (by omega)
    exact amDiffSn_snAt_add (snAt_lt _ _) hk.vrR_lt (by omega) (by omega)
  refine ⟨⟨snAt_lt _ _, rfl, snAt_lt _ _, fun hrun ↦ ?_⟩, hoffset⟩
  obtain ⟨hvrX, hpos, hle⟩ := hk.running hrun
  refine ⟨hvrX, ?_⟩
  have hleH : e.offset e.vrH ≤ h := ha.h_eq ▸ le_max_left _ _
  have hposX : 0 < amDiffSn e.vrX e.vrR := hpos
  have hleX : amDiffSn e.vrX e.vrR ≤ h := hle.trans hleH
  rcases le_or_gt r (amDiffSn e.vrX e.vrR) with hrx | hxr
  · have heq : amDiffSn e.vrX (snAt e.vrR r) = amDiffSn e.vrX e.vrR - r :=
      amDiffSn_snAt_add hvrX hk.vrR_lt hrx rfl
    rcases Nat.eq_zero_or_pos (amDiffSn e.vrX e.vrR - r) with hzero | hpos
    · exact .inr (.inl (heq.trans hzero))
    · have hposX : 0 < amDiffSn e.vrX (snAt e.vrR r) := by omega
      have hleX : amDiffSn e.vrX (snAt e.vrR r) ≤ amDiffSn (snAt e.vrR h) (snAt e.vrR r) := by omega
      exact .inl ⟨hvrX, hposX, hleX⟩
  · refine .inr (.inr ?_)
    have hgoal : 512 < amDiffSn e.vrX (snAt e.vrR r) := by
      have hvrR := hk.vrR_lt
      rw [amDiffSn_eq] at hposX hxr ⊢
      rw [snAt]
      omega
    exact hgoal

/-- The new state, seen from the new VR(R). -/
structure Settled (e e' : AmRxEntity) (r m h : ℕ) : Prop where
  vrR_eq : e'.vrR = snAt e.vrR r
  vrMr_eq : e'.vrMr = snAt e'.vrR 512
  vrH_eq : e'.vrH = snAt e.vrR h
  offset_vrH : e'.offset e'.vrH = h - r
  vrMs : e'.vrMs = snAt e.vrR m ∨ e'.vrMs = e'.vrH
  blocks : SnSorted e'.vrR e'.receiverBuffer
  stored : ∀ p ∈ e'.receiverBuffer, e'.offset p.sn < h - r
  msDuration_eq : e'.tReordering.msDuration = e.tReordering.msDuration
  running : e'.tReordering.running = true → e'.Supervises
  started : e'.vrH ≠ e'.vrR → e.tReordering.msDuration ≠ 0 → e'.tReordering.running = true
  vrX : e'.vrX = rlcSnUndefined ∨ e'.Supervises ∨
    e'.vrX = e.vrX ∧ e'.vrH = e'.vrR ∧ e.tReordering.running = false ∧
      (e.tReordering.msDuration ≠ 0 ∨ (e.vrX < 1024 → ¬(e'.offset e'.vrX = 0 ∨ 512 < e'.offset e'.vrX)))

theorem Accepted.settled {m : ℕ} (ha : Accepted e now tb next r m h e') (hk : e.Kept) : Settled e e' r m h := by
  obtain ⟨list₁, list', reassembled, a, b, rfl, hsorted, hall⟩ := ha.result
  obtain ⟨hmoved, hoffset⟩ := ha.moved hk list₁
  have hre := hmoved.reordered now
  have hvrR : ((moveTo list₁ (snAt e.vrR r) (snAt (snAt e.vrR r) 512) (snAt e.vrR m) (snAt e.vrR h) e).reorder now).vrR =
    snAt e.vrR r := hre.vrR_eq
  have hvrH : ((moveTo list₁ (snAt e.vrR r) (snAt (snAt e.vrR r) 512) (snAt e.vrR m) (snAt e.vrR h) e).reorder now).vrH =
    snAt e.vrR h := hre.vrH_eq
  refine ⟨hvrR, ?_, hvrH, ?_, ?_, ?_, ?_, hre.msDuration_eq, ?_, ?_, ?_⟩
  · dsimp only
    rw [hvrR]
    exact hre.vrMr_eq
  · rw [offset]
    dsimp only
    rw [hvrR, hvrH]
    exact hoffset
  · dsimp only
    rw [hvrH]
    exact hre.vrMs
  · dsimp only
    rw [hvrR]
    exact hsorted.rebase hk.vrR_lt fun p hp ↦ (hall p hp).1
  · intro p hp
    have hlt := hall p hp
    rw [offset]
    dsimp only
    rw [hvrR, amDiffSn_snAt_add (hsorted.sn_lt p hp) hk.vrR_lt hlt.1 rfl]
    omega
  · intro hrun
    obtain ⟨hvrX, hpos, hle⟩ := hre.running hrun
    exact ⟨hvrX, hpos, hle⟩
  · intro hne
    dsimp only at hne
    rw [hvrR, hvrH] at hne
    exact hre.started hne
  · rcases hre.vrX with hundefined | ⟨hvrX, hpos, hle⟩ | ⟨hvrX, hend, hrunning, hcases⟩
    · exact .inl hundefined
    · exact .inr (.inl ⟨hvrX, hpos, hle⟩)
    · refine .inr (.inr ⟨hvrX, ?_, hrunning, ?_⟩)
      · dsimp only
        rw [hvrR, hvrH]
        exact hend
      · refine hcases.imp_right fun hcases hlt hbehind ↦ hcases ?_
        refine (isBehind_iff hmoved.vrR_lt hlt hmoved.vrMr_eq).mpr ?_
        rw [offset] at hbehind
        dsimp only at hbehind
        rw [hvrR, hvrX] at hbehind
        exact hbehind

theorem Settled.kept {m : ℕ} (h' : Settled e e' r m h) (hrh : r ≤ h) (hh : h ≤ 512) : e'.Kept where
  vrR_lt := h'.vrR_eq ▸ snAt_lt _ _
  vrMr_eq := h'.vrMr_eq
  vrH_lt := h'.vrH_eq ▸ snAt_lt _ _
  vrMs_lt := by
    have hvrH : e'.vrH < 1024 := h'.vrH_eq ▸ snAt_lt _ _
    rcases h'.vrMs with heq | heq
    · rw [heq]
      exact snAt_lt _ _
    · rw [heq]
      exact hvrH
  vrH_le := by
    rw [h'.offset_vrH]
    omega
  blocks := h'.blocks
  stored p hp := by
    rw [h'.offset_vrH]
    exact h'.stored p hp
  running := h'.running

end Accept

section Steps

/-- Of the other PDUs the list holds only blocks that it held before. -/
theorem mem_of_mem_check (all : Bool) (hold : ∀ p ∈ before ++ after, p ∈ e.receiverBuffer)
    (hp : p ∈ before.map (AmRxBlock.markIf all tb.sn) ++ tb.markIf all tb.sn :: after.map (AmRxBlock.markIf all tb.sn))
    (hne : p.sn ≠ tb.sn) : p ∈ e.receiverBuffer := by
  have hback (list : List AmRxBlock) (hlist : ∀ q ∈ list, q ∈ before ++ after)
      (hp : p ∈ list.map (AmRxBlock.markIf all tb.sn)) : p ∈ e.receiverBuffer := by
    obtain ⟨q, hq, rfl⟩ := List.mem_map.mp hp
    rw [markIf_sn] at hne
    rw [markIf_of_ne hne]
    exact hold q (hlist q hq)
  rcases List.mem_append.mp hp with hp | hp
  · exact hback before (fun q hq ↦ List.mem_append_left _ hq) hp
  · rcases List.mem_cons.mp hp with rfl | hp
    · rw [markIf_sn] at hne
      exact absurd rfl hne
    · exact hback after (fun q hq ↦ List.mem_append_right _ hq) hp

/-- A whole PDU of which only a part is new moves VR(R) away from the head of the list. -/
theorem accept_of_copied (htb : tb.sn = e.vrR) (hrf : tb.pduInfo.rf = false) (hmarked : tb.allSegmentsReceived = true)
    (hhead : ∃ head ∈ list.head?, head.sn = e.vrR ∧ head.pduInfo.rf = true ∧ head.allSegmentsReceived = false) :
    e.accept now tb [] list = none := by
  obtain ⟨head, hhead, hsn, hheadRf, hunmarked⟩ := hhead
  have hnext : updateVrR e.vrR [tb] = (e.vrR + 1) &&& 0x3FF := by
    rw [updateVrR, hmarked, htb, hrf]
    simp [updateVrR]
  have hne : head.sn ≠ (e.vrR + 1) &&& 0x3FF := by
    rw [hsn, show (e.vrR + 1) &&& 0x3FF = (e.vrR + 1) % 1024 from Nat.and_two_pow_sub_one_eq_mod _ 10]
    omega
  have hfail : rxCheckVrReassemble ((e.vrR + 1) &&& 0x3FF) list = none := by
    cases list with
    | nil => cases hhead
    | cons p list =>
      cases hhead
      rw [rxCheckVrReassemble]
      dsimp only
      rw [if_pos hne, if_pos ⟨hheadRf, hunmarked⟩]
  rw [accept]
  dsimp only
  rw [if_pos htb, if_pos hmarked, hnext]
  dsimp only
  rw [hfail]
  rfl

/-- What a block does that has been put into the list. -/
theorem placed_cases (hk : e.Kept) (htb : tb.sn < 1024) (hs : amDiffSn tb.sn e.vrR < 512)
    (hsorted : SnSorted e.vrR (before ++ tb :: after)) (hold : ∀ p ∈ before ++ after, p ∈ e.receiverBuffer)
    (hwhole : tb.pduInfo.rf = false → ∀ p ∈ before ++ after, p.sn ≠ tb.sn)
    (hstep : e.accept now (checkAllByteSegments before tb after).2.1 (checkAllByteSegments before tb after).2.2
      ((checkAllByteSegments before tb after).1 ++
        (checkAllByteSegments before tb after).2.1 :: (checkAllByteSegments before tb after).2.2) = some e') :
    ∃ tb' next r m h, Accepted e now tb' next r m h e' ∧ tb'.sn = tb.sn ∧
      (tb'.allSegmentsReceived = true → (∃ before', checkAllByteSegments before tb after = (before', tb', next)) ∧
        ∀ p ∈ tb' :: next, p.sn ≠ tb.sn → p ∈ e.receiverBuffer) := by
  obtain ⟨all, hcheck⟩ := hsorted.check hk.vrR_lt hwhole
  have hsorted' := hsorted.markIf all tb.sn
  rw [List.map_append, List.map_cons] at hsorted'
  rw [hcheck] at hstep ⊢
  have hbelow (p : AmRxBlock) (hp : p ∈ before.map (AmRxBlock.markIf all tb.sn) ++
      tb.markIf all tb.sn :: after.map (AmRxBlock.markIf all tb.sn)) :
      p.sn = (tb.markIf all tb.sn).sn ∨ e.offset p.sn < e.offset e.vrH := by
    rw [markIf_sn]
    exact (em (p.sn = tb.sn)).imp_right fun hne ↦ hk.stored p (mem_of_mem_check all hold hp hne)
  obtain ⟨r, m, h, haccepted⟩ := accepted hk (by rw [markIf_sn]; exact hs) hsorted' (by rw [markIf_sn]; exact htb) hbelow
    (fun _ ↦ ⟨_, rfl⟩) (fun p hp ↦ List.mem_append_right _ (List.mem_cons_of_mem _ hp)) hstep
  refine ⟨_, _, r, m, h, haccepted, markIf_sn _ _ _, fun _ ↦ ⟨⟨_, rfl⟩, fun p hp hne ↦ ?_⟩⟩
  exact mem_of_mem_check all hold (List.mem_append_right _ hp) hne

/-- What a block does of which a part has been copied into the list. -/
theorem copied_cases (hk : e.Kept) (htb : tb.sn < 1024) (hs : amDiffSn tb.sn e.vrR < 512)
    (hnew : tb.allSegmentsReceived = false) (hsorted : SnSorted e.vrR list)
    (hold : ∀ p ∈ list, p.sn ≠ tb.sn → p ∈ e.receiverBuffer)
    (hwhole : tb.pduInfo.rf = false → tb.sn = e.vrR ∧ ∃ head ∈ list.head?, head.sn = e.vrR ∧
      head.pduInfo.rf = true ∧ head.allSegmentsReceived = false)
    (hstep : e.accept now (if tb.pduInfo.rf = false then tb.mark else tb) [] list = some e') :
    ∃ tb' r m h, Accepted e now tb' [] r m h e' ∧ tb'.sn = tb.sn ∧ tb'.allSegmentsReceived = false := by
  by_cases hrf : tb.pduInfo.rf = false
  · obtain ⟨hvrR, hhead⟩ := hwhole hrf
    have hmarkSn : tb.mark.sn = e.vrR := hvrR
    rw [if_pos hrf, accept_of_copied hmarkSn hrf rfl hhead] at hstep
    cases hstep
  · rw [if_neg hrf] at hstep
    have hbelow (p : AmRxBlock) (hp : p ∈ list) : p.sn = tb.sn ∨ e.offset p.sn < e.offset e.vrH :=
      (em (p.sn = tb.sn)).imp_right fun hne ↦ hk.stored p (hold p hp hne)
    have hnext (hmarked : tb.allSegmentsReceived = true) : ∃ before, list = before ++ [tb] := by
      rw [hnew] at hmarked
      cases hmarked
    obtain ⟨r, m, h, haccepted⟩ := accepted hk hs hsorted htb hbelow hnext (fun p hp ↦ by cases hp) hstep
    exact ⟨tb, r, m, h, haccepted, rfl, hnew⟩

/-- What the arrival of a block does. -/
theorem data_cases (hk : e.Kept) (htb : tb.sn < 1024) (hstep : receiveProcessDataPdu now tb e = some e') :
    (∃ a b, e' = { e with statusRequested := a, snStatusTriggeredDelayed := b }) ∨
      ∃ tb' next r m h, Accepted e now tb' next r m h e' ∧ tb'.sn = tb.sn ∧
        (tb'.allSegmentsReceived = true → (∃ before, e.arrival tb = some (before, tb', next)) ∧
          ∀ p ∈ tb' :: next, p.sn ≠ tb.sn → p ∈ e.receiverBuffer) := by
  have hnewSn : ({ tb with allSegmentsReceived := false } : AmRxBlock).sn < 1024 := htb
  have hnew : ({ tb with allSegmentsReceived := false } : AmRxBlock).allSegmentsReceived = false := rfl
  have harrival : e.arrival tb = (match e.rxListCheckDuplicateInsertPdu { tb with allSegmentsReceived := false } with
    | some (.placed before tb after) => some (checkAllByteSegments before tb after)
    | _ => none) := rfl
  rw [receiveProcessDataPdu] at hstep
  dsimp only at hstep
  by_cases hin : amSnInWindow ({ tb with allSegmentsReceived := false } : AmRxBlock).sn e.vrR = true
  · rw [if_pos hin] at hstep
    have hs : amDiffSn tb.sn e.vrR < 512 := of_decide_eq_true hin
    cases hi : e.rxListCheckDuplicateInsertPdu { tb with allSegmentsReceived := false } with
    | none =>
      rw [hi] at hstep
      cases hstep
    | some i =>
      have harrived := arrived hk.blocks hk.vrR_lt hnewSn hnew hi
      rw [hi] at hstep harrival
      cases i with
      | refused status =>
        obtain ⟨a, b, heq⟩ := triggerStatus_eq { tb with allSegmentsReceived := false } status e
        exact .inl ⟨a, b, (Option.some.inj hstep).symm.trans heq⟩
      | placed before x after =>
        dsimp only at hstep harrival
        cases harrived with
        | placed hsorted hold hwhole =>
          have hplaced : ({ tb with allSegmentsReceived := false, segmentReassembled := .no } : AmRxBlock).sn < 1024 := htb
          obtain ⟨tb', next, r, m, h, haccepted, hsn, hmarked⟩ := placed_cases hk hplaced hs hsorted hold hwhole hstep
          refine .inr ⟨tb', next, r, m, h, haccepted, hsn, fun hall ↦ ?_⟩
          rw [harrival]
          exact (hmarked hall).imp_left fun ⟨before', heq⟩ ↦ ⟨before', congrArg some heq⟩
      | copied list =>
        dsimp only at hstep
        cases harrived with
        | copied hsorted hold hunmarked hmem hwhole =>
          obtain ⟨tb', r, m, h, haccepted, hsn, hmarked⟩ := copied_cases hk hnewSn hs hnew hsorted hold hwhole hstep
          refine .inr ⟨tb', [], r, m, h, haccepted, hsn, fun hall ↦ ?_⟩
          rw [hmarked] at hall
          cases hall
  · rw [if_neg hin] at hstep
    obtain ⟨a, b, heq⟩ := triggerStatus_eq { tb with allSegmentsReceived := false } .snOutsideWindow e
    exact .inl ⟨a, b, (Option.some.inj hstep).symm.trans heq⟩

/-- The list from the PDU VR(X) on. -/
def fromVrX (e : AmRxEntity) : List AmRxBlock :=
  e.receiverBuffer.dropWhile fun p ↦ amDiffSn p.sn e.vrR < amDiffSn e.vrX e.vrR

/-- What the expiry of t-Reordering does: VR(MS) is a PDU from VR(X) to VR(H), and the timer is not running. -/
theorem timer_cases (hk : e.Kept) (hstep : checkTimerReordering now e = some e') :
    e' = e ∨ (e.tReordering.running = true ∧ e.tReordering.expired now) ∧ ∃ k t a b,
      e.offset e.vrX ≤ k ∧ k ≤ e.offset e.vrH ∧ skipComplete e.vrH e.vrX e.fromVrX = snAt e.vrR k ∧
      t.running = false ∧ t.msDuration = e.tReordering.msDuration ∧
      e' = { e with
        vrMs := snAt e.vrR k, vrX := if snAt e.vrR k ≠ e.vrH then e.vrH else e.vrX, tReordering := t
        statusRequested := a, snStatusTriggeredDelayed := b } := by
  rw [checkTimerReordering] at hstep
  by_cases hexpired : e.tReordering.running = true ∧ e.tReordering.expired now
  · obtain ⟨hvrX, hpos, hle⟩ := hk.running hexpired.1
    have hH := hk.vrH_le
    have hvrXAt : snAt e.vrR (e.offset e.vrX) = e.vrX := snAt_amDiffSn hk.vrR_lt hvrX
    have hcursor (p : AmRxBlock) (hp : p ∈ e.fromVrX) : amDiffSn p.sn e.vrR < e.offset e.vrH :=
      hk.stored p ((List.dropWhile_sublist _).subset hp)
    obtain ⟨k, hXk, -, heq, hpassed⟩ := skipComplete_spec (h := e.vrH) hk.vrR_lt (hle.trans hH) fun p hp ↦
      (hcursor p hp).trans_le hH
    have hkH : k ≤ e.offset e.vrH := le_of_marked hcursor hle hpassed
    rw [hvrXAt] at heq
    rw [if_pos hexpired] at hstep
    refine .inr ⟨hexpired, ?_⟩
    split_ifs at hstep
    rw [fromVrX] at heq
    dsimp only at hstep
    rw [heq] at hstep
    have hresult := (Option.some.inj hstep).symm
    refine ⟨k, e'.tReordering, e'.statusRequested, e'.snStatusTriggeredDelayed, hXk, hkH, heq, ?_⟩
    by_cases hend : snAt e.vrR k ≠ e.vrH
    · rw [if_pos hend] at hresult ⊢
      subst hresult
      exact ⟨rfl, rfl, rfl⟩
    · rw [if_neg hend] at hresult ⊢
      subst hresult
      exact ⟨rfl, rfl, rfl⟩
  · rw [if_neg hexpired] at hstep
    exact .inl (Option.some.inj hstep).symm

/-- The PDUs of the row that VR(R) passes, without the first one, were complete before. -/
theorem Accepted.marked (ha : Accepted e now tb next r m h e') (hk : e.Kept)
    (hold : tb.allSegmentsReceived = true → ∀ p ∈ tb :: next, p.sn ≠ tb.sn → p ∈ e.receiverBuffer) {i : ℕ} (hpos : 0 < i) (hi : i < r) :
    Marked e.vrR e.receiverBuffer i := by
  obtain ⟨p, hp, hpi, hmarked⟩ := ha.passed i hi
  obtain ⟨htb, hall⟩ := ha.complete (Nat.ne_zero_of_lt hi)
  refine ⟨p, hold hall p hp fun heq ↦ ?_, hpi, hmarked⟩
  have hvrR := hk.vrR_lt
  rw [heq, htb, amDiffSn_eq] at hpi
  omega

theorem offset_init (d : ℕ) : (init d).offset 0 = 0 := by
  have hzero : amDiffSn 0 0 = 0 := by decide
  exact hzero

theorem kept_init (d : ℕ) : (init d).Kept where
  vrR_lt := Nat.zero_lt_succ _
  vrMr_eq := (Nat.mod_eq_of_lt (show 0 + 512 < 1024 by decide)).symm
  vrH_lt := Nat.zero_lt_succ _
  vrMs_lt := Nat.zero_lt_succ _
  vrH_le := (offset_init d).trans_le (Nat.zero_le _)
  blocks := ⟨List.forall_mem_nil _, List.Pairwise.nil, List.forall_mem_nil _⟩
  stored := List.forall_mem_nil _
  running hrun := Bool.noConfusion hrun

/-- Every step keeps what `Kept` says. -/
theorem Kept.step {x : AmRxEvent} (hk : e.Kept) (hsn : ∀ now tb, x = .data now tb → tb.sn < 1024)
    (hstep : step x e = some e') : e'.Kept := by
  cases x with
  | data now tb =>
    rcases data_cases hk (hsn now tb rfl) hstep with ⟨a, b, rfl⟩ | ⟨tb', next, r, m, h, haccepted, -⟩
    · exact ⟨hk.vrR_lt, hk.vrMr_eq, hk.vrH_lt, hk.vrMs_lt, hk.vrH_le, hk.blocks, hk.stored, fun hrun ↦
        ⟨(hk.running hrun).vrX_lt, (hk.running hrun).pos, (hk.running hrun).le⟩⟩
    · exact (haccepted.settled hk).kept haccepted.r_le haccepted.h_le
  | timer now =>
    rcases timer_cases hk hstep with rfl | ⟨-, k, t, a, b, hXk, hkH, -, hrunning, -, rfl⟩
    · exact hk
    · exact ⟨hk.vrR_lt, hk.vrMr_eq, hk.vrH_lt, snAt_lt _ _, hk.vrH_le, hk.blocks, hk.stored, fun hrun ↦ by
        rw [hrunning] at hrun
        cases hrun⟩

end Steps

end AmRxEntity

end EdgeSlice.Rlc

namespace EdgeSlice.Rlc

namespace AmRxEntity

open AmRxBlock

variable {e e' : AmRxEntity} {p tb tb' : AmRxBlock} {before after next list : List AmRxBlock} {now r m h : ℕ}

/-- The order of the state variables, seen from VR(R), and where the stored PDUs lie. -/
structure WindowOrdered (e : AmRxEntity) : Prop where
  vrMr_eq : e.vrMr = snAt e.vrR 512
  vrMs_le : e.offset e.vrMs ≤ e.offset e.vrH
  vrH_le : e.offset e.vrH ≤ e.offset e.vrMr
  vrX : e.vrX = rlcSnUndefined ∨ e.Supervises
  stored : ∀ p ∈ e.receiverBuffer, e.offset p.sn < e.offset e.vrH

/-- If VR(MS) = VR(R), the PDUs of the row of complete PDUs, without the last one, are one block each from
`tb` on; else a PDU up to VR(MS) is not complete. -/
def NoOvertaking (e : AmRxEntity) (tb : AmRxBlock) (after : List AmRxBlock) : Prop :=
  (e.vrMs = e.vrR → ∀ i, (∀ j ≤ i + 1, Marked e.vrR (tb :: after) j) →
    ((tb :: after).filter fun p ↦ amDiffSn p.sn e.vrR = i).length ≤ 1) ∧
  (e.vrMs ≠ e.vrR → ∃ i, 0 < i ∧ i ≤ e.offset e.vrMs ∧ ¬Marked e.vrR e.receiverBuffer i)

/-- A VR(X) that is left over from an expired timer is not passed: a PDU below VR(H) is not complete. -/
def NotStale (e : AmRxEntity) : Prop :=
  e.tReordering.running = false → e.tReordering.msDuration ≠ 0 → e.vrX ≠ rlcSnUndefined →
    ∃ i, 0 < i ∧ i < e.offset e.vrH ∧ ¬Marked e.vrR e.receiverBuffer i

/-- The SN is one of a header, and if the block completes the PDU VR(R), the variables keep their order. -/
def Orderly (e : AmRxEntity) : AmRxEvent → Prop
  | .data _ tb => tb.sn < 1024 ∧ ∀ before tb' after, e.arrival tb = some (before, tb', after) →
      tb'.allSegmentsReceived = true → tb.sn = e.vrR → e.NoOvertaking tb' after ∧ e.NotStale
  | .timer _ => True

/-- VR(R) does not overtake VR(MS). -/
theorem Accepted.le (ha : Accepted e now tb next r m h e') (hk : e.Kept)
    (hold : tb.allSegmentsReceived = true → ∀ p ∈ tb :: next, p.sn ≠ tb.sn → p ∈ e.receiverBuffer)
    (hover : tb.sn = e.vrR → tb.allSegmentsReceived = true → e.NoOvertaking tb next) : r ≤ m := by
  obtain ⟨m', hm', heq, hle, -⟩ := vrMs_spec hk.vrR_lt hk.vrMs_lt ha.h_le ha.below
  have hmm : m = m' := snAt_inj hk.vrR_lt ha.m_lt hm' (ha.vrMs_eq.symm.trans heq)
  rcases Nat.eq_zero_or_pos r with rfl | hr
  · exact Nat.zero_le m
  obtain ⟨hsn, hmarked⟩ := ha.complete hr.ne'
  obtain ⟨hsame, hother⟩ := hover hsn hmarked
  by_cases hvr : e.vrMs = e.vrR
  · have heq := ha.vrMs_eq
    rw [if_pos ⟨hsn.trans hvr.symm, hmarked⟩] at heq
    exact le_vrMs hk.vrR_lt (ha.sorted hmarked) ha.h_le ha.below hvr ha.r_le ha.passed
      (fun i hi ↦ hsame hvr i fun j hj ↦ ha.passed j (by omega)) ha.m_lt heq
  · obtain ⟨i, hpos, hi, hunmarked⟩ := hother hvr
    have hri : r ≤ i := not_lt.mp fun hlt ↦ hunmarked (ha.marked hk hold hpos hlt)
    omega

/-- VR(X) is not left behind. -/
theorem Settled.vrX_spec (h' : Settled e e' r m h) (hw : e.WindowOrdered) (hrh : r ≤ h)
    (hh : h ≤ 512) (hle : e.offset e.vrH ≤ h)
    (hstale : h = r → e.tReordering.running = false → e.tReordering.msDuration ≠ 0 → e.vrX = rlcSnUndefined) :
    e'.vrX = rlcSnUndefined ∨ e'.Supervises := by
  rcases h'.vrX with hundefined | hsupervises | ⟨hvrX, hend, hrunning, hcases⟩
  · exact .inl hundefined
  · exact .inr hsupervises
  · have hoffset := h'.offset_vrH
    rw [hend, offset, amDiffSn_eq] at hoffset
    have hhr : h = r := by omega
    rcases hcases with hduration | hbehind
    · exact .inl (hvrX.trans (hstale hhr hrunning hduration))
    · refine .inl (hvrX.trans (hw.vrX.resolve_right fun hsupervises ↦ ?_))
      obtain ⟨hlt, hpos, hleX⟩ := hsupervises
      refine hbehind hlt ?_
      rw [hvrX, offset, amDiffSn_eq, h'.vrR_eq, snAt]
      rw [offset, amDiffSn_eq] at hpos hleX
      omega

/-- The order of the variables after a block has been accepted. -/
theorem Accepted.windowOrdered (ha : Accepted e now tb next r m h e') (hk : e.Kept) (hw : e.WindowOrdered)
    (hold : tb.allSegmentsReceived = true → ∀ p ∈ tb :: next, p.sn ≠ tb.sn → p ∈ e.receiverBuffer)
    (hover : tb.sn = e.vrR → tb.allSegmentsReceived = true → e.NoOvertaking tb next ∧ e.NotStale) :
    e'.WindowOrdered := by
  have hs := ha.settled hk
  have hle : e.offset e.vrH ≤ h := ha.h_eq ▸ le_max_left _ _
  have hrh := ha.r_le
  have hh := ha.h_le
  refine ⟨hs.vrMr_eq, ?_, ?_, ?_, fun p hp ↦ ?_⟩
  · rcases hs.vrMs with heq | heq
    · have hrm := ha.le hk hold fun hsn hmarked ↦ (hover hsn hmarked).1
      obtain ⟨m', hm', hEq, -, hcases⟩ := vrMs_spec hk.vrR_lt hk.vrMs_lt ha.h_le ha.below
      have hmm : m = m' := snAt_inj hk.vrR_lt ha.m_lt hm' (ha.vrMs_eq.symm.trans hEq)
      have hmsH := hw.vrMs_le
      have hmd : amDiffSn (snAt e.vrR m) e.vrR = m := amDiffSn_snAt hk.vrR_lt ha.m_lt
      rw [hs.offset_vrH, heq, offset, hs.vrR_eq, amDiffSn_snAt_add (snAt_lt _ _) hk.vrR_lt (by omega) rfl, hmd]
      omega
    · rw [heq]
  · rw [hs.offset_vrH, hs.vrMr_eq, offset, amDiffSn_snAt (hs.vrR_eq ▸ snAt_lt _ _) (by decide)]
    omega
  · refine hs.vrX_spec hw hrh hh hle fun hhr hrunning hduration ↦ ?_
    by_contra hne
    have hpos : 0 < h := ha.h_eq ▸ lt_max_of_lt_right (Nat.succ_pos _)
    obtain ⟨hsn, hmarked⟩ := ha.complete (by omega)
    obtain ⟨i, hi, hlt, hunmarked⟩ := (hover hsn hmarked).2 hrunning hduration hne
    exact hunmarked (ha.marked hk hold hi (by omega))
  · rw [hs.offset_vrH]
    exact hs.stored p hp

theorem windowOrdered_init (d : ℕ) : (init d).WindowOrdered :=
  ⟨(kept_init d).vrMr_eq, le_rfl, (offset_init d).trans_le (Nat.zero_le _), .inl rfl, List.forall_mem_nil _⟩

/-- Every orderly step keeps the order too. -/
theorem WindowOrdered.step {x : AmRxEvent} (hk : e.Kept) (hw : e.WindowOrdered) (hgood : e.Orderly x)
    (hstep : step x e = some e') : e'.WindowOrdered := by
  cases x with
  | data now tb =>
    obtain ⟨hsn, hgood⟩ := hgood
    rcases data_cases hk hsn hstep with ⟨a, b, rfl⟩ | ⟨tb', next, r, m, h, haccepted, htb, hmarked⟩
    · exact ⟨hw.vrMr_eq, hw.vrMs_le, hw.vrH_le, hw.vrX.imp_right fun h ↦ ⟨h.vrX_lt, h.pos, h.le⟩, hw.stored⟩
    · have hover (hvr : tb'.sn = e.vrR) (hall : tb'.allSegmentsReceived = true) :
          e.NoOvertaking tb' next ∧ e.NotStale := by
        obtain ⟨⟨before, harrival⟩, -⟩ := hmarked hall
        exact hgood before tb' next harrival hall (htb ▸ hvr)
      have hold (hall : tb'.allSegmentsReceived = true) (p : AmRxBlock) (hp : p ∈ tb' :: next) (hne : p.sn ≠ tb'.sn) :
          p ∈ e.receiverBuffer := (hmarked hall).2 p hp (htb ▸ hne)
      exact haccepted.windowOrdered hk hw hold hover
  | timer now =>
    rcases timer_cases hk hstep with rfl | ⟨⟨hrun, -⟩, k, t, a, b, hXk, hkH, -, -, -, rfl⟩
    · exact hw
    · have hH := hk.vrH_le
      have hx := hk.running hrun
      have hoffset : amDiffSn (snAt e.vrR k) e.vrR = k := amDiffSn_snAt hk.vrR_lt (by omega)
      refine ⟨hw.vrMr_eq, ?_, hw.vrH_le, .inr ?_, hw.stored⟩
      · rw [offset]
        dsimp only
        rw [hoffset]
        exact hkH
      · by_cases hend : snAt e.vrR k ≠ e.vrH
        · simp only [if_pos hend]
          exact ⟨hk.vrH_lt, hx.pos.trans_le hx.le, le_rfl⟩
        · simp only [if_neg hend]
          exact ⟨hx.vrX_lt, hx.pos, hx.le⟩

/-- The PDU 0 is completed when the PDU 1, in two parts, is complete. -/
def overtaking : List AmRxEvent :=
  [.data 0 (received twentyBytes 0 5 15), .data 1 (received twentyBytes 1 10 10),
    .data 2 (received twentyBytes 1 0 10), .data 3 (received twentyBytes 0 0 5)]

end AmRxEntity

end EdgeSlice.Rlc
