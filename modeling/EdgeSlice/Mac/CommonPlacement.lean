import EdgeSlice.Mac.CommonChannels
import Mathlib.Data.List.Forall2

namespace EdgeSlice.Mac

open Function PackedWord Placement

inductive CommonMessage
  | si
  | rar
  | msg4
  | msg4Retransmission
  deriving DecidableEq

def CommonMessage.isRa (m : CommonMessage) : Bool := m ≠ .si

/-- The message that a random access process has to send, and its DCI. -/
def RaProc.due (inp : CommonInput) (i : ℕ) (p : RaProc) : List (CommonMessage × DciAlloc) :=
  if p.raActive then
    if p.generateRar then [(.rar, commonDci p.raRnti)]
    else if p.generateMsg4 ∧ 0 < inp.rrcSduLength i then [(.msg4, raDci p.rnti)]
    else []
  else if p.waitAckMsg4 ∧ 0 < inp.round i then [(.msg4Retransmission, raDci p.rnti)]
  else []

def CommonInput.dueSi (inp : CommonInput) : List (CommonMessage × DciAlloc) :=
  if 0 < inp.bcchSduLength then [(.si, commonDci siRnti)] else []

/-- The messages of a subframe in the order in which they are scheduled. -/
def CommonInput.due (inp : CommonInput) (ra : ℕ → RaProc) : List (CommonMessage × DciAlloc) :=
  inp.dueSi ++ (List.range nbRaProcMax).flatMap fun i ↦ (ra i).due inp i

/-- The messages whose DCI passes `CCE_allocation_infeasible` in its turn. -/
def passing (getNcceMax : ℕ → ℕ → ℕ) (subframe : ℕ) :
    List DciAlloc → List (CommonMessage × DciAlloc) → List (CommonMessage × DciAlloc)
  | _, [] => []
  | dcis, m :: ms =>
    if cceAllocationInfeasible getNcceMax subframe dcis m.2 then passing getNcceMax subframe dcis ms
    else m :: passing getNcceMax subframe (dcis ++ [m.2]) ms

variable {getNcceMax getTbsDl : ℕ → ℕ → ℕ} {subframe : ℕ} {inp : CommonInput} {ch ch' ch'' : CommonChannels}
  {b : Bandwidth} {frameType : FrameType} {m : CommonMessage}

theorem passing_append (dcis : List DciAlloc) (xs ys : List (CommonMessage × DciAlloc)) :
    passing getNcceMax subframe dcis (xs ++ ys) =
      passing getNcceMax subframe dcis xs ++
        passing getNcceMax subframe (dcis ++ (passing getNcceMax subframe dcis xs).map Prod.snd) ys := by
  induction xs generalizing dcis with
  | nil => simp [passing]
  | cons x xs ih =>
    simp only [List.cons_append, passing]
    split
    · exact ih dcis
    · simp [ih]

theorem mem_due_of_passing {dcis : List DciAlloc} {ms : List (CommonMessage × DciAlloc)} {x : CommonMessage × DciAlloc}
    (h : x ∈ passing getNcceMax subframe dcis ms) : x ∈ ms := by
  induction ms generalizing dcis with
  | nil => simp [passing] at h
  | cons y ys ih =>
    simp only [passing] at h
    split at h
    · exact List.mem_cons_of_mem y (ih h)
    · rcases List.mem_cons.mp h with rfl | hrest
      · exact List.mem_cons_self
      · exact List.mem_cons_of_mem y (ih hrest)

/-! The blocks that the tables give for each message. -/

namespace CommonMessage

/-- The first of the four blocks that are marked for a message. -/
def firstRb (b : Bandwidth) : CommonMessage → ℤ
  | si => b.siFirstRb
  | rar | msg4 | msg4Retransmission => 0

/-- The blocks of the DCI for a message. The retransmission of Msg4 writes the nine high bits of
another field than that of its bandwidth. -/
def HasBlocks (b : Bandwidth) (blocks : Option (ℕ × ℕ)) : CommonMessage → Prop
  | msg4Retransmission =>
    match b with
    | .rb15 | .rb75 => blocks = none
    | .rb6 => blocks = some (1, 1)
    | .rb25 => blocks = some (0, 4)
    | .rb50 => ∃ x < 4, blocks = some (x, 13)
    | .rb100 => ∃ x < 16, blocks = some (x, 49)
  | m => blocks = b.rballocWidth.map fun _ ↦ ((m.firstRb b).toNat, 4)

end CommonMessage

theorem fillDci1a_rballoc (l : Dci1aLayout) (nRb firstRb : ℕ) (mcs : Option ℤ) (rv : ℕ) (pads : Bool) (pdu : ℕ) :
    l.rballoc.get (fillDci1a l nRb firstRb mcs rv pads pdu) = computeRIV nRb firstRb 4 % 2 ^ l.rballoc.width := by
  rw [fillDci1a, Field.get_put_self]

theorem lookup_of_eq {n start len c : ℕ} (hc : c = computeRIV n start len) (hpos : 0 < len) (hle : start + len ≤ n) :
    RunCode.lookup n c = some (start, len) := by
  rw [hc, computeRIV_eq, RunCode.lookup_code hpos hle]

/-- The DCIs of four blocks where the field for their bandwidth is written. -/
theorem blocksOf_fillDci1a {w : ℕ} (hw : b.rballocWidth = some w) {first : ℕ}
    (hfirst : first = 0 ∨ first = b.siFirstRb.toNat) (mcs : Option ℤ) (rv : ℕ) (pads : Bool) (pdu : ℕ) :
    b.blocksOf frameType (fillDci1a (dci1aLayout frameType w) b.nRbDl first mcs rv pads pdu) = some (first, 4) := by
  rw [Bandwidth.blocksOf, hw]
  simp only [Option.bind_some, fillDci1a_rballoc]
  apply lookup_of_eq _ (by omega)
  · rcases hfirst with rfl | rfl <;> cases b <;> simp [Bandwidth.siFirstRb, Bandwidth.nRbDl, Bandwidth.rballocWidth] at hw ⊢
  · cases b <;> simp only [Bandwidth.rballocWidth, Option.some.injEq, reduceCtorEq] at hw <;> subst hw <;>
      rcases hfirst with rfl | rfl <;> simp [dci1aLayout, computeRIV, Bandwidth.nRbDl, Bandwidth.siFirstRb]

/-- What the write through the structure for 25 resource blocks leaves in the field of another bandwidth. -/
theorem hasBlocks_retransmission (pdu : ℕ) :
    CommonMessage.HasBlocks b (b.blocksOf frameType ((dci1aLayout frameType 9).rballoc.put (computeRIV b.nRbDl 0 4) pdu))
      .msg4Retransmission := by
  cases b with
  | rb15 => rfl
  | rb75 => rfl
  | rb6 =>
    simp only [CommonMessage.HasBlocks, Bandwidth.blocksOf, Bandwidth.rballocWidth, Option.bind_some]
    apply lookup_of_eq _ (by omega) (by simp [Bandwidth.nRbDl])
    rw [Field.get_put_of_narrow (by simp [dci1aLayout]) (by simp [dci1aLayout])]
    simp [dci1aLayout, computeRIV, Bandwidth.nRbDl]
  | rb25 =>
    simp only [CommonMessage.HasBlocks, Bandwidth.blocksOf, Bandwidth.rballocWidth, Option.bind_some]
    apply lookup_of_eq _ (by omega) (by simp [Bandwidth.nRbDl])
    rw [Field.get_put_self]
    simp [dci1aLayout, computeRIV, Bandwidth.nRbDl]
  | rb50 =>
    simp only [CommonMessage.HasBlocks, Bandwidth.blocksOf, Bandwidth.rballocWidth, Option.bind_some]
    rw [Field.get_put_of_top (by simp [dci1aLayout]) (by simp [dci1aLayout])]
    refine ⟨_, Nat.mod_lt (pdu >>> 19) (by omega : 0 < 4), lookup_of_eq ?_ (by omega) ?_⟩
    · simp [dci1aLayout, computeRIV, Bandwidth.nRbDl]
    · simp only [Bandwidth.nRbDl]; omega
  | rb100 =>
    simp only [CommonMessage.HasBlocks, Bandwidth.blocksOf, Bandwidth.rballocWidth, Option.bind_some]
    rw [Field.get_put_of_top (by simp [dci1aLayout]) (by simp [dci1aLayout])]
    refine ⟨_, Nat.mod_lt (pdu >>> 17) (by omega : 0 < 16), lookup_of_eq ?_ (by omega) ?_⟩
    · simp [dci1aLayout, computeRIV, Bandwidth.nRbDl]
    · simp only [Bandwidth.nRbDl]; omega

/-- The entry is the DCI of the message. -/
def Carries (inp : CommonInput) (x : CommonMessage × DciAlloc) (e : DciEntry) : Prop :=
  e.alloc = x.2 ∧ x.1.HasBlocks inp.bandwidth (inp.bandwidth.blocksOf inp.frameType e.dciPdu)

theorem map_alloc {xs : List (CommonMessage × DciAlloc)} {es : List DciEntry} (h : List.Forall₂ (Carries inp) xs es) :
    es.map DciEntry.alloc = xs.map Prod.snd := by
  induction h with
  | nil => rfl
  | cons hx _ ih => simp [hx.1, ih]

/-- `ch'` has the DCIs that `ms` adds to those of `ch`, with the blocks of their messages, and the
marks of `ms`. -/
structure Schedules (getNcceMax : ℕ → ℕ → ℕ) (inp : CommonInput) (ms : List (CommonMessage × DciAlloc))
    (ch ch' : CommonChannels) : Prop where
  added : ∃ es, ch'.dcis = ch.dcis ++ es ∧
    List.Forall₂ (Carries inp)
      (passing getNcceMax inp.subframe (ch.dcis.map DciEntry.alloc) ms) es
  marks : ∀ k, ch'.vrbMap k ≠ 0 ↔
    ch.vrbMap k ≠ 0 ∨ ∃ x ∈ ms, x.1.firstRb inp.bandwidth ≤ k ∧ k < x.1.firstRb inp.bandwidth + 4

theorem Schedules.of_same (hdcis : ch'.dcis = ch.dcis) (hmap : ch'.vrbMap = ch.vrbMap) :
    Schedules getNcceMax inp [] ch ch' where
  added := ⟨[], by simp [hdcis], .nil⟩
  marks := by simp [hmap]

theorem Schedules.refl (ch : CommonChannels) : Schedules getNcceMax inp [] ch ch := .of_same rfl rfl

theorem Schedules.trans {xs ys : List (CommonMessage × DciAlloc)} (h : Schedules getNcceMax inp xs ch ch')
    (h' : Schedules getNcceMax inp ys ch' ch'') : Schedules getNcceMax inp (xs ++ ys) ch ch'' where
  added := by
    obtain ⟨es, hes, hall⟩ := h.added
    obtain ⟨es', hes', hall'⟩ := h'.added
    have hallocs := map_alloc hall
    refine ⟨es ++ es', by rw [hes', hes, List.append_assoc], ?_⟩
    rw [passing_append]
    apply List.rel_append hall
    rwa [hes, List.map_append, hallocs] at hall'
  marks k := by
    rw [h'.marks, h.marks, or_assoc]
    simp [or_and_right, exists_or]

theorem mark_vrbMap {firstRb k : ℤ} :
    (ch.mark firstRb).vrbMap k ≠ 0 ↔ ch.vrbMap k ≠ 0 ∨ firstRb ≤ k ∧ k < firstRb + 4 := by
  simp only [CommonChannels.mark, update_apply]
  split_ifs <;> simp <;> omega

/-- One message: its blocks are marked, and its DCI is added if it passes the test. -/
theorem schedules_tested {d : DciAlloc} {pdu : ℕ} (hdcis : ch'.dcis = ch.dcis)
    (hmap : ch'.vrbMap = (ch.mark (m.firstRb inp.bandwidth)).vrbMap) (hadded : ch''.dcis = ch.dcis ++ [⟨d, pdu⟩])
    (hmap' : ch''.vrbMap = (ch.mark (m.firstRb inp.bandwidth)).vrbMap)
    (hblocks : m.HasBlocks inp.bandwidth (inp.bandwidth.blocksOf inp.frameType pdu)) :
    Schedules getNcceMax inp [(m, d)] ch (if ch'.infeasible getNcceMax inp.subframe d then ch' else ch'') := by
  rw [CommonChannels.infeasible, hdcis]
  split
  case isTrue htest =>
    exact {
      added := ⟨[], by simpa using hdcis, by simp [passing, htest]⟩
      marks := fun k ↦ by rw [hmap, mark_vrbMap]; simp }
  case isFalse htest =>
    exact {
      added := ⟨_, hadded, by simp [passing, htest, Carries, hblocks]⟩
      marks := fun k ↦ by rw [hmap', mark_vrbMap]; simp }

theorem blocksOf_none (h : b.rballocWidth = none) (pdu : ℕ) : b.blocksOf frameType pdu = none := by
  rw [Bandwidth.blocksOf, h, Option.bind_none]

/-- A message whose DCI is written through the structure for its own bandwidth. -/
theorem hasBlocks_written (hm : m ≠ .msg4Retransmission) {pdu : ℕ}
    (hpdu : ∀ w, b.rballocWidth = some w → ∃ mcs rv pads old,
      pdu = fillDci1a (dci1aLayout frameType w) b.nRbDl (m.firstRb b).toNat mcs rv pads old) :
    m.HasBlocks b (b.blocksOf frameType pdu) := by
  have hblocks : b.blocksOf frameType pdu = b.rballocWidth.map fun _ ↦ ((m.firstRb b).toNat, 4) := by
    cases hw : b.rballocWidth with
    | none => exact blocksOf_none hw pdu
    | some w =>
      obtain ⟨mcs, rv, pads, old, rfl⟩ := hpdu w hw
      apply blocksOf_fillDci1a hw
      cases m <;> simp [CommonMessage.firstRb]
  cases m <;> simp_all [CommonMessage.HasBlocks]

theorem scheduleSi_schedules (ch : CommonChannels) :
    Schedules getNcceMax inp inp.dueSi ch (scheduleSi getNcceMax getTbsDl inp ch) := by
  rw [CommonInput.dueSi, scheduleSi]
  split
  · refine schedules_tested (m := .si) (by rfl) (by rfl) (by rfl) (by rfl) ?_
    apply hasBlocks_written (by simp)
    intro w hw
    rw [hw]
    exact ⟨_, _, _, _, rfl⟩
  · exact .refl ch

theorem sendRar_schedules (i : ℕ) (ch : CommonChannels) :
    Schedules getNcceMax inp [(.rar, commonDci (ch.ra i).raRnti)] ch (sendRar getNcceMax inp i ch) := by
  rw [sendRar]
  refine schedules_tested (m := .rar) (by rfl) (by rfl) (by rfl) (by rfl) ?_
  apply hasBlocks_written (by simp)
  intro w hw
  rw [hw]
  exact ⟨_, _, _, _, rfl⟩

theorem sendMsg4_schedules {i : ℕ} (h : sendMsg4 getNcceMax inp i ch = some ch') :
    Schedules getNcceMax inp (if 0 < inp.rrcSduLength i then [(.msg4, raDci (ch.ra i).rnti)] else []) ch ch' := by
  rw [sendMsg4] at h
  split at h
  case isTrue => simp at h
  case isFalse =>
    split at h
    case isTrue hlength =>
      cases h
      rw [if_pos hlength]
      refine schedules_tested (m := .msg4) (by rfl) (by rfl) (by rfl) (by rfl) ?_
      apply hasBlocks_written (by simp)
      intro w hw
      rw [hw]
      exact ⟨_, _, _, _, rfl⟩
    case isFalse hlength =>
      cases h
      rw [if_neg hlength]
      exact .refl ch

theorem resendMsg4_schedules (i : ℕ) (ch : CommonChannels) :
    Schedules getNcceMax inp [(.msg4Retransmission, raDci (ch.ra i).rnti)] ch (resendMsg4 getNcceMax inp i ch) := by
  rw [resendMsg4]
  refine schedules_tested (m := .msg4Retransmission) (by rfl) (by rfl) (by rfl) (by rfl) ?_
  apply hasBlocks_retransmission

theorem configureUe_schedules {i : ℕ} (h : configureUe inp i ch = some ch') : Schedules getNcceMax inp [] ch ch' := by
  obtain ⟨ueId, -, rfl⟩ := Option.map_eq_some_iff.mp h
  exact .of_same (by rfl) (by rfl)

/-- One turn of the loop schedules what its process has to send, and leaves the other processes. -/
theorem scheduleRaProc_schedules {i : ℕ} (h : scheduleRaProc getNcceMax inp ch i = some ch') :
    Schedules getNcceMax inp ((ch.ra i).due inp i) ch ch' := by
  rw [scheduleRaProc] at h
  rw [RaProc.due]
  split at h
  case isTrue hactive =>
    rw [if_pos hactive]
    split at h
    case isTrue hrar =>
      cases h
      rw [if_pos hrar]
      exact sendRar_schedules i ch
    case isFalse hrar =>
      rw [if_neg hrar]
      split at h
      case isTrue hmsg4 => simpa [hmsg4] using sendMsg4_schedules h
      case isFalse hmsg4 =>
        cases h
        simpa [hmsg4] using .refl ch
  case isFalse hactive =>
    rw [if_neg hactive]
    split at h
    case isTrue hwait =>
      split at h
      case isTrue hround =>
        cases h
        simpa [hwait, hround] using resendMsg4_schedules i ch
      case isFalse hround => simpa [hround] using configureUe_schedules h
    case isFalse hwait =>
      cases h
      simpa [hwait] using .refl ch

@[simp] theorem mark_ra (firstRb : ℤ) : (ch.mark firstRb).ra = ch.ra := rfl

@[simp] theorem addDci_ra (d : DciEntry) : (ch.addDci d).ra = ch.ra := rfl

@[simp] theorem setRa_ra_of_ne {i j : ℕ} (p : RaProc) (hj : j ≠ i) : (ch.setRa i p).ra j = ch.ra j := by
  simp [CommonChannels.setRa, hj]

theorem sendRar_ra {i j : ℕ} (hj : j ≠ i) : (sendRar getNcceMax inp i ch).ra j = ch.ra j := by
  simp only [sendRar]
  split_ifs <;> simp [hj]

theorem sendMsg4_ra {i j : ℕ} (h : sendMsg4 getNcceMax inp i ch = some ch') (hj : j ≠ i) : ch'.ra j = ch.ra j := by
  simp only [sendMsg4] at h
  split_ifs at h <;> cases h <;> simp [hj]

theorem resendMsg4_ra {i j : ℕ} (hj : j ≠ i) : (resendMsg4 getNcceMax inp i ch).ra j = ch.ra j := by
  simp only [resendMsg4]
  split_ifs <;> simp [hj]

theorem configureUe_ra {i j : ℕ} (h : configureUe inp i ch = some ch') (hj : j ≠ i) : ch'.ra j = ch.ra j := by
  obtain ⟨ueId, -, rfl⟩ := Option.map_eq_some_iff.mp h
  exact setRa_ra_of_ne _ hj

theorem scheduleRaProc_ra {i j : ℕ} (h : scheduleRaProc getNcceMax inp ch i = some ch') (hj : j ≠ i) :
    ch'.ra j = ch.ra j := by
  simp only [scheduleRaProc] at h
  split_ifs at h
  · exact Option.some_inj.mp h ▸ sendRar_ra hj
  · exact sendMsg4_ra h hj
  · exact Option.some_inj.mp h ▸ rfl
  · exact Option.some_inj.mp h ▸ resendMsg4_ra hj
  · exact configureUe_ra h hj
  · exact Option.some_inj.mp h ▸ rfl

theorem scheduleRa_schedules {is : List ℕ} (hnodup : is.Nodup)
    (h : is.foldlM (scheduleRaProc getNcceMax inp) ch = some ch') :
    Schedules getNcceMax inp (is.flatMap fun i ↦ (ch.ra i).due inp i) ch ch' := by
  induction is generalizing ch with
  | nil =>
    cases h
    exact .refl _
  | cons i is ih =>
    obtain ⟨mid, hmid, hrest⟩ := Option.bind_eq_some_iff.mp h
    have hothers : ∀ j ∈ is, mid.ra j = ch.ra j := by
      intro j hj
      apply scheduleRaProc_ra hmid
      intro heq
      exact (List.nodup_cons.mp hnodup).1 (heq ▸ hj)
    have hdue : (is.flatMap fun j ↦ (mid.ra j).due inp j) = is.flatMap fun j ↦ (ch.ra j).due inp j := by
      apply List.flatMap_congr
      intro j hj
      rw [hothers j hj]
    rw [List.flatMap_cons, ← hdue]
    exact (scheduleRaProc_schedules hmid).trans (ih (List.nodup_cons.mp hnodup).2 hrest)

theorem scheduleSi_ra (ch : CommonChannels) : (scheduleSi getNcceMax getTbsDl inp ch).ra = ch.ra := by
  simp only [scheduleSi]
  split_ifs <;> rfl

theorem scheduleCommon_schedules {ulDcis : List DciEntry}
    (h : scheduleCommon getNcceMax getTbsDl inp ulDcis ch = some ch') :
    Schedules getNcceMax inp (inp.due ch.ra) (ch.cleared ulDcis) ch' := by
  have hra := scheduleRa_schedules (List.nodup_range) h
  rw [scheduleSi_ra] at hra
  exact (scheduleSi_schedules _).trans hra

end EdgeSlice.Mac
