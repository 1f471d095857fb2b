import EdgeSlice.Mac.CommonPlacement
import EdgeSlice.Mac.DlschIsolation

namespace EdgeSlice.Mac

open Function PackedWord Placement

/-- A block of the carrier that the DCI allocates. -/
def DciEntry.Has (inp : CommonInput) (e : DciEntry) (q : ℕ) : Prop :=
  ∃ r, inp.bandwidth.blocksOf inp.frameType e.dciPdu = some r ∧ InBlock r.1 r.2 q

/-- The blocks of the common channels are apart, exist, and are kept from the UEs. -/
structure PrbsSeparate (inp : CommonInput) (vrbMap : ℤ → ℕ) (es : List DciEntry) : Prop where
  allocated : ∀ e ∈ es, (inp.bandwidth.blocksOf inp.frameType e.dciPdu).isSome
  disjoint : es.Pairwise fun e e' ↦ ∀ q, e.Has inp q → ¬ e'.Has inp q
  inCarrier : ∀ e ∈ es, ∀ q, e.Has inp q → q < inp.bandwidth.nRbDl
  reserved : ∀ e ∈ es, ∀ q, e.Has inp q → ∀ cc ue nbRbsRequired st r,
    dlschSchedulerPreProcessorReset inp.bandwidth inp.subframe vrbMap cc ue nbRbsRequired st = some r →
      r.2.rballocSub cc (q / inp.bandwidth.rbgSize : ℕ) = 1
  unallocated : ∀ e ∈ es, ∀ q, e.Has inp q → ∀ cc ue nbRbsRequired st r,
    dlschSchedulerPreProcessorReset inp.bandwidth inp.subframe vrbMap cc ue nbRbsRequired st = some r → Cleared r.2 →
      ∀ mac slices minRbUnit nbRbsRequired' st',
        dlschMySchedulerPreProcessor mac slices minRbUnit nbRbsRequired' r.2 = some st' →
          ∀ u, (st'.ueSchedCtrl u).rballocSubUE cc (q / inp.bandwidth.rbgSize : ℕ) = 0

/-- Two messages that are placed on a block in common. -/
def Clash (b : Bandwidth) (m m' : CommonMessage) : Prop := b = .rb6 ∨ m.isRa = m'.isRa

/-- The DCI of the message is written into the field for its bandwidth, or reads as a part of the
blocks that are marked. -/
def Covered (b : Bandwidth) (m : CommonMessage) : Prop := m = .msg4Retransmission → b = .rb6 ∨ b = .rb25

/-- The messages that can be sent in one subframe. -/
structure Compatible (b : Bandwidth) (ms : List CommonMessage) : Prop where
  format : ms ≠ [] → b.rballocWidth.isSome
  covered : ∀ m ∈ ms, Covered b m
  apart : ms.Pairwise fun m m' ↦ ¬ Clash b m m'

section Blocks

variable {b : Bandwidth} {m m' : CommonMessage} {blocks : Option (ℕ × ℕ)} {r r' : ℕ × ℕ}

theorem hasBlocks_isSome (h : m.HasBlocks b blocks) : blocks.isSome ↔ b.rballocWidth.isSome := by
  cases m with
  | si | rar | msg4 =>
    change blocks = _ at h
    rw [h, Option.isSome_map]
  | msg4Retransmission =>
    cases b with
    | rb50 | rb100 =>
      obtain ⟨x, -, rfl⟩ := h
      rfl
    | _ =>
      change blocks = _ at h
      rw [h]
      rfl

/-- A block that each message has, and that messages which clash share. -/
def sharedRb (b : Bandwidth) (m : CommonMessage) : ℕ :=
  if b = .rb6 then 1 else if m.isRa then 3 else b.siFirstRb.toNat

theorem sharedRb_of_clash (h : Clash b m m') : sharedRb b m = sharedRb b m' := by
  rcases h with rfl | h
  · rfl
  · rw [sharedRb, sharedRb, h]

/-- Where the blocks of a message are, when there are any. -/
theorem hasBlocks_some (h : m.HasBlocks b (some r)) :
    r.2 = 4 ∧ r.1 = (m.firstRb b).toNat ∧ Covered b m ∧ b.rballocWidth.isSome ∨
      m = .msg4Retransmission ∧ (b = .rb6 ∧ r = (1, 1) ∨ b = .rb50 ∧ r.1 < 4 ∧ r.2 = 13 ∨
        b = .rb100 ∧ r.1 < 16 ∧ r.2 = 49) := by
  have hwritten : some r = b.rballocWidth.map (fun _ ↦ ((m.firstRb b).toNat, 4)) → Covered b m →
      r.2 = 4 ∧ r.1 = (m.firstRb b).toNat ∧ Covered b m ∧ b.rballocWidth.isSome := by
    intro hr hm
    obtain ⟨w, hw, rfl⟩ := Option.map_eq_some_iff.mp hr.symm
    exact ⟨rfl, rfl, hm, by rw [hw]; rfl⟩
  cases m with
  | si => exact .inl (hwritten h (by simp [Covered]))
  | rar => exact .inl (hwritten h (by simp [Covered]))
  | msg4 => exact .inl (hwritten h (by simp [Covered]))
  | msg4Retransmission =>
    cases b <;> simp only [CommonMessage.HasBlocks, Option.some.injEq, reduceCtorEq] at h
    case rb25 => exact .inl (hwritten (by rw [h]; rfl) (by simp [Covered]))
    case rb6 => simp [h]
    all_goals
      obtain ⟨x, hx, rfl⟩ := h
      simp [hx]

theorem sharedRb_mem (h : m.HasBlocks b (some r)) (hm : Covered b m) : InBlock r.1 r.2 (sharedRb b m) := by
  rcases hasBlocks_some h with ⟨hlen, hfirst, -, hb⟩ | ⟨rfl, ⟨rfl, rfl⟩ | ⟨rfl, -⟩ | ⟨rfl, -⟩⟩
  · rw [InBlock, hlen, hfirst]
    cases m <;> cases b <;>
      simp [CommonMessage.firstRb, sharedRb, CommonMessage.isRa, Bandwidth.siFirstRb, Bandwidth.rballocWidth] at hb ⊢
  · simp [InBlock, sharedRb]
  all_goals simp [Covered] at hm

theorem covered_mem (h : m.HasBlocks b (some r)) (hm : Covered b m) {q : ℕ} (hq : InBlock r.1 r.2 q) :
    m.firstRb b ≤ q ∧ q < m.firstRb b + 4 ∧ q < b.nRbDl := by
  obtain ⟨hlow, hhigh⟩ := hq
  rcases hasBlocks_some h with ⟨hlen, hfirst, -, hb⟩ | ⟨rfl, ⟨rfl, rfl⟩ | ⟨rfl, hx, hlen⟩ | ⟨rfl, hx, hlen⟩⟩
  · rw [hlen] at hhigh
    cases m <;> cases b <;>
      simp [CommonMessage.firstRb, Bandwidth.siFirstRb, Bandwidth.nRbDl, Bandwidth.rballocWidth] at hb hfirst ⊢ <;>
      omega
  · simp only [CommonMessage.firstRb, Bandwidth.nRbDl]
    omega
  all_goals simp [Covered] at hm

theorem firstRb_apart (hb : b.rballocWidth.isSome) (h : ¬ Clash b m m') :
    m.firstRb b + 4 ≤ m'.firstRb b ∨ m'.firstRb b + 4 ≤ m.firstRb b := by
  rw [Clash, not_or] at h
  cases b <;> simp [Bandwidth.rballocWidth] at hb h <;> cases m <;> cases m' <;>
    simp [CommonMessage.isRa, CommonMessage.firstRb, Bandwidth.siFirstRb] at h ⊢

theorem uncovered_mem (h : m.HasBlocks b (some r)) (hm : ¬ Covered b m) :
    b = .rb50 ∧ InBlock r.1 r.2 6 ∨ b = .rb100 ∧ InBlock r.1 r.2 16 := by
  rcases hasBlocks_some h with ⟨-, -, hcov, -⟩ | ⟨rfl, ⟨rfl, rfl⟩ | ⟨rfl, hx, hlen⟩ | ⟨rfl, hx, hlen⟩⟩
  · exact absurd hcov hm
  · exact absurd (fun _ ↦ .inl rfl) hm
  · exact .inl ⟨rfl, by omega, by omega⟩
  · exact .inr ⟨rfl, by omega, by omega⟩

end Blocks

variable {getNcceMax getTbsDl : ℕ → ℕ → ℕ} {inp : CommonInput} {ch ch' : CommonChannels} {ulDcis : List DciEntry}

theorem reset_rballocSub {b : Bandwidth} {subframe : ℕ} {vrbMap : ℤ → ℕ} {cc ue : ℕ} {nbRbsRequired : ℕ → ℕ → ℕ}
    {st : DlState} {r : (ℕ → ℕ → ℕ) × DlState} {i : ℤ}
    (h : dlschSchedulerPreProcessorReset b subframe vrbMap cc ue nbRbsRequired st = some r) (hlow : 0 ≤ i)
    (hhigh : i < b.nRbg) :
    r.2.rballocSub cc i = 1 ↔
      (∃ limits, sf0Limits b.nRbg = some limits ∧ subframe = 0 ∧ limits.1 ≤ i ∧ i ≤ limits.2) ∨
        ∃ j < b.rbSize i, vrbMap (j + i * b.rbgSize) ≠ 0 := by
  obtain ⟨limits, hlimits, hr⟩ := Option.bind_eq_some_iff.mp h
  cases hr
  simp [DlState.setUe, hlow, hhigh, hlimits, or_iff_not_imp_left]

/-- The group of a marked block is taken. -/
theorem rballocSub_of_marked {b : Bandwidth} {subframe : ℕ} {vrbMap : ℤ → ℕ} {cc ue q : ℕ} {nbRbsRequired : ℕ → ℕ → ℕ}
    {st : DlState} {r : (ℕ → ℕ → ℕ) × DlState}
    (h : dlschSchedulerPreProcessorReset b subframe vrbMap cc ue nbRbsRequired st = some r)
    (hq : q < b.nRbDl) (hmark : vrbMap q ≠ 0) : r.2.rballocSub cc (q / b.rbgSize : ℕ) = 1 := by
  have hgroup : ((q / b.rbgSize : ℕ) : ℤ) < b.nRbg := by
    cases b <;> simp only [Bandwidth.nRbDl, Bandwidth.rbgSize, Bandwidth.nRbg] at hq ⊢ <;> omega
  rw [reset_rballocSub h (Int.natCast_nonneg _) hgroup]
  right
  refine ⟨q % b.rbgSize, ?_, ?_⟩
  · rw [Bandwidth.rbSize]
    split
    case isTrue hlast =>
      cases b <;> simp only [Bandwidth.nRbDl, Bandwidth.rbgSize, Bandwidth.nRbg, Bandwidth.rbgSizeLast] at hq hlast ⊢ <;>
        omega
    case isFalse => exact Nat.mod_lt q (by cases b <;> simp [Bandwidth.rbgSize])
  · have hplace : ((q % b.rbgSize : ℕ) : ℤ) + ((q / b.rbgSize : ℕ) : ℤ) * b.rbgSize = q := by
      exact_mod_cast Nat.mod_add_div' q b.rbgSize
    rwa [hplace]

theorem rbSize_le_rbgSize (b : Bandwidth) (i : ℤ) : b.rbSize i ≤ b.rbgSize := by
  rw [Bandwidth.rbSize]
  split
  · cases b <;> simp [Bandwidth.rbgSize, Bandwidth.rbgSizeLast]
  · exact le_rfl

/-- A group before the middle of the carrier is taken for one of its blocks only. -/
theorem exists_marked {b : Bandwidth} {subframe : ℕ} {vrbMap : ℤ → ℕ} {cc ue : ℕ} {nbRbsRequired : ℕ → ℕ → ℕ}
    {st : DlState} {r : (ℕ → ℕ → ℕ) × DlState} {i : ℤ}
    (h : dlschSchedulerPreProcessorReset b subframe vrbMap cc ue nbRbsRequired st = some r) (hlow : 0 ≤ i)
    (hhigh : i < b.nRbg) (hmiddle : ∀ limits, sf0Limits b.nRbg = some limits → i < limits.1)
    (hone : r.2.rballocSub cc i = 1) :
    ∃ k, i * b.rbgSize ≤ k ∧ k < i * b.rbgSize + b.rbgSize ∧ vrbMap k ≠ 0 := by
  rcases (reset_rballocSub h hlow hhigh).mp hone with ⟨limits, hlimits, -, hin, -⟩ | ⟨j, hj, hmark⟩
  · have hbefore := hmiddle limits hlimits
    omega
  · have hsize := rbSize_le_rbgSize b i
    exact ⟨j + i * b.rbgSize, by omega, by omega, hmark⟩

/-- What the schedulers leave, as the blocks see it. -/
theorem vrbMap_scheduleCommon (h : scheduleCommon getNcceMax getTbsDl inp ulDcis ch = some ch') {k : ℤ} (hlow : 0 ≤ k)
    (hhigh : k < 100) :
    ch'.vrbMap k ≠ 0 ↔
      ∃ x ∈ inp.due ch.ra, x.1.firstRb inp.bandwidth ≤ k ∧ k < x.1.firstRb inp.bandwidth + 4 := by
  rw [(scheduleCommon_schedules h).marks]
  simp [CommonChannels.cleared, hlow, hhigh]

theorem added_scheduleCommon (h : scheduleCommon getNcceMax getTbsDl inp ulDcis ch = some ch') :
    List.Forall₂ (Carries inp) (passing getNcceMax inp.subframe (ulDcis.map DciEntry.alloc) (inp.due ch.ra))
      (ch'.dcis.drop ulDcis.length) := by
  obtain ⟨es, hes, hall⟩ := (scheduleCommon_schedules h).added
  change ch'.dcis = ulDcis ++ es at hes
  rwa [hes, List.drop_left]

/-- The groups of the blocks 6 and 16 are free when the retransmission of Msg4 uses them. -/
theorem rballocSub_unmarked (h : scheduleCommon getNcceMax getTbsDl inp ulDcis ch = some ch') {q : ℕ}
    (hq : inp.bandwidth = .rb50 ∧ q = 6 ∨ inp.bandwidth = .rb100 ∧ q = 16)
    {cc ue : ℕ} {nbRbsRequired : ℕ → ℕ → ℕ} {st : DlState} {r : (ℕ → ℕ → ℕ) × DlState}
    (hr : dlschSchedulerPreProcessorReset inp.bandwidth inp.subframe ch'.vrbMap cc ue nbRbsRequired st = some r) :
    r.2.rballocSub cc (q / inp.bandwidth.rbgSize : ℕ) ≠ 1 := by
  intro hone
  have hmark : ∃ k : ℤ, q ≤ k ∧ k < q + 4 ∧ ch'.vrbMap k ≠ 0 := by
    rcases hq with ⟨hb, rfl⟩ | ⟨hb, rfl⟩ <;> rw [hb] at hone hr
    all_goals
      obtain ⟨k, hlow, hhigh, hk⟩ := exists_marked hr (by decide) (by decide) (by decide) hone
      simp only [Bandwidth.rbgSize] at hlow hhigh
      exact ⟨k, by omega, by omega, hk⟩
  obtain ⟨k, hlow, hhigh, hk⟩ := hmark
  obtain ⟨⟨m, d⟩, -, hfirst, hlast⟩ := (vrbMap_scheduleCommon h (by omega) (by omega)).mp hk
  rcases hq with ⟨hb, rfl⟩ | ⟨hb, rfl⟩ <;> cases m <;>
    simp only [hb, CommonMessage.firstRb, Bandwidth.siFirstRb] at hfirst hlast <;> omega

variable {xs : List (CommonMessage × DciAlloc)} {es : List DciEntry}

theorem entry_of_message (h : List.Forall₂ (Carries inp) xs es) {x : CommonMessage × DciAlloc} (hx : x ∈ xs) :
    ∃ e ∈ es, Carries inp x e := by
  induction h with
  | nil => simp at hx
  | cons hxe _ ih =>
    rcases List.mem_cons.mp hx with rfl | hx
    · exact ⟨_, List.mem_cons_self, hxe⟩
    · obtain ⟨e, he, hcarries⟩ := ih hx
      exact ⟨e, List.mem_cons_of_mem _ he, hcarries⟩

theorem message_of_entry (h : List.Forall₂ (Carries inp) xs es) {e : DciEntry} (he : e ∈ es) :
    ∃ x ∈ xs, Carries inp x e := by
  induction h with
  | nil => simp at he
  | cons hxe _ ih =>
    rcases List.mem_cons.mp he with rfl | he
    · exact ⟨_, List.mem_cons_self, hxe⟩
    · obtain ⟨x, hx, hcarries⟩ := ih he
      exact ⟨x, List.mem_cons_of_mem _ hx, hcarries⟩

variable {x x' : CommonMessage × DciAlloc} {e e' : DciEntry}

/-- The DCIs of two messages that clash have a block in common, and those of two others have none. -/
theorem disjoint_iff_not_clash (hx : Carries inp x e) (hx' : Carries inp x' e')
    (he : (inp.bandwidth.blocksOf inp.frameType e.dciPdu).isSome) (hcov : Covered inp.bandwidth x.1)
    (hcov' : Covered inp.bandwidth x'.1) :
    (∀ q, e.Has inp q → ¬ e'.Has inp q) ↔ ¬ Clash inp.bandwidth x.1 x'.1 := by
  have hb := (hasBlocks_isSome hx.2).mp he
  obtain ⟨r, hr⟩ := Option.isSome_iff_exists.mp he
  obtain ⟨r', hr'⟩ := Option.isSome_iff_exists.mp ((hasBlocks_isSome hx'.2).mpr hb)
  have hblocks := hx.2
  have hblocks' := hx'.2
  rw [hr] at hblocks
  rw [hr'] at hblocks'
  constructor
  · intro hdisj hclash
    apply hdisj (sharedRb inp.bandwidth x.1) ⟨r, hr, sharedRb_mem hblocks hcov⟩
    rw [sharedRb_of_clash hclash]
    exact ⟨r', hr', sharedRb_mem hblocks' hcov'⟩
  · intro hclash q ⟨s, hs, hq⟩ ⟨s', hs', hq'⟩
    cases hr.symm.trans hs
    cases hr'.symm.trans hs'
    obtain ⟨hlow, hhigh, -⟩ := covered_mem hblocks hcov hq
    obtain ⟨hlow', hhigh', -⟩ := covered_mem hblocks' hcov' hq'
    rcases firstRb_apart hb hclash with hapart | hapart <;> omega

/-- The clashes of the messages are the collisions of their DCIs. -/
theorem pairwise_disjoint_iff (h : List.Forall₂ (Carries inp) xs es)
    (halloc : ∀ e ∈ es, (inp.bandwidth.blocksOf inp.frameType e.dciPdu).isSome)
    (hcov : ∀ x ∈ xs, Covered inp.bandwidth x.1) :
    (es.Pairwise fun e e' ↦ ∀ q, e.Has inp q → ¬ e'.Has inp q) ↔
      (xs.map Prod.fst).Pairwise fun m m' ↦ ¬ Clash inp.bandwidth m m' := by
  induction h with
  | nil => simp
  | @cons x e xs es hx hrest ih =>
    obtain ⟨he, hes⟩ := List.forall_mem_cons.mp halloc
    obtain ⟨hcovx, hcovs⟩ := List.forall_mem_cons.mp hcov
    rw [List.map_cons, List.pairwise_cons, List.pairwise_cons, ih hes hcovs, List.forall_mem_map]
    apply and_congr_left'
    constructor
    · intro hdisj x' hx'
      obtain ⟨e', he', hcarries⟩ := entry_of_message hrest hx'
      exact (disjoint_iff_not_clash hx hcarries he hcovx (hcovs x' hx')).mp (hdisj e' he')
    · intro hclash e' he'
      obtain ⟨x', hx', hcarries⟩ := message_of_entry hrest he'
      exact (disjoint_iff_not_clash hx hcarries he hcovx (hcovs x' hx')).mpr (hclash x' hx')

/-- A group that is taken before the pre-processor starts is given to no UE. -/
theorem not_allocated {mac : EnbMac} {slices : GlobalInfos} {minRbUnit : ℕ → ℤ} {nbRbsRequired : ℕ → ℕ → ℕ}
    {st st' : DlState} {cc : ℕ} {k : ℤ} (hclear : Cleared st) (htaken : st.rballocSub cc k ≠ 0)
    (h : dlschMySchedulerPreProcessor mac slices minRbUnit nbRbsRequired st = some st') (u : ℕ) :
    (st'.ueSchedCtrl u).rballocSubUE cc k = 0 := by
  rw [dlsch_eq_turns] at h
  by_contra hm
  exact htaken ((hclear.exclusive.run h).recorded u cc k hm).1

/-- A DCI that is protected stays inside the marked blocks. -/
theorem covered_of_reserved (h : scheduleCommon getNcceMax getTbsDl inp ulDcis ch = some ch')
    (hsep : PrbsSeparate inp ch'.vrbMap es) (he : e ∈ es) (hx : Carries inp x e) : Covered inp.bandwidth x.1 := by
  by_contra hcov
  obtain ⟨r, hr⟩ := Option.isSome_iff_exists.mp (hsep.allocated e he)
  have hblocks := hx.2
  rw [hr] at hblocks
  obtain ⟨reset, hreset, -⟩ :=
    dlschSchedulerPreProcessorReset_clears inp.bandwidth inp.subframe ch'.vrbMap 0 0 (fun _ _ ↦ 0) .idle
  rcases uncovered_mem hblocks hcov with ⟨hb, hmem⟩ | ⟨hb, hmem⟩
  · exact rballocSub_unmarked h (.inl ⟨hb, rfl⟩) hreset (hsep.reserved e he 6 ⟨r, hr, hmem⟩ 0 0 _ _ _ hreset)
  · exact rballocSub_unmarked h (.inr ⟨hb, rfl⟩) hreset (hsep.reserved e he 16 ⟨r, hr, hmem⟩ 0 0 _ _ _ hreset)

/-- The DCIs that a subframe adds for the common channels have blocks of their own exactly when the
messages that pass the test for control channel elements can be sent together. -/
theorem prbsSeparate_iff (h : scheduleCommon getNcceMax getTbsDl inp ulDcis ch = some ch') :
    PrbsSeparate inp ch'.vrbMap (ch'.dcis.drop ulDcis.length) ↔
      Compatible inp.bandwidth
        ((passing getNcceMax inp.subframe (ulDcis.map DciEntry.alloc) (inp.due ch.ra)).map Prod.fst) := by
  have hall := added_scheduleCommon h
  constructor
  · intro hsep
    have hcov : ∀ x ∈ passing getNcceMax inp.subframe (ulDcis.map DciEntry.alloc) (inp.due ch.ra),
        Covered inp.bandwidth x.1 := by
      intro x hx
      obtain ⟨e, he, hcarries⟩ := entry_of_message hall hx
      exact covered_of_reserved h hsep he hcarries
    refine ⟨?_, List.forall_mem_map.mpr hcov, (pairwise_disjoint_iff hall hsep.allocated hcov).mp hsep.disjoint⟩
    intro hne
    obtain ⟨m, hm⟩ := List.exists_mem_of_ne_nil _ hne
    obtain ⟨x, hx, -⟩ := List.mem_map.mp hm
    obtain ⟨e, he, hcarries⟩ := entry_of_message hall hx
    exact (hasBlocks_isSome hcarries.2).mp (hsep.allocated e he)
  · intro hcomp
    have hcov := List.forall_mem_map.mp hcomp.covered
    have halloc : ∀ e ∈ ch'.dcis.drop ulDcis.length, (inp.bandwidth.blocksOf inp.frameType e.dciPdu).isSome := by
      intro e he
      obtain ⟨x, hx, hcarries⟩ := message_of_entry hall he
      exact (hasBlocks_isSome hcarries.2).mpr (hcomp.format (List.ne_nil_of_mem (List.mem_map_of_mem hx)))
    have hplace : ∀ e ∈ ch'.dcis.drop ulDcis.length, ∀ q, e.Has inp q →
        q < inp.bandwidth.nRbDl ∧ ch'.vrbMap q ≠ 0 := by
      intro e he q ⟨r, hr, hq⟩
      obtain ⟨x, hx, hcarries⟩ := message_of_entry hall he
      have hblocks := hcarries.2
      rw [hr] at hblocks
      obtain ⟨hlow, hhigh, hin⟩ := covered_mem hblocks (hcov x hx) hq
      have hsmall := inp.bandwidth.nRbDl_le
      exact ⟨hin, (vrbMap_scheduleCommon h (by omega) (by omega)).mpr ⟨x, mem_due_of_passing hx, hlow, hhigh⟩⟩
    have hreserved {e : DciEntry} (he : e ∈ ch'.dcis.drop ulDcis.length) {q : ℕ} (hq : e.Has inp q)
        {cc ue : ℕ} {nbRbsRequired : ℕ → ℕ → ℕ} {st : DlState} {r : (ℕ → ℕ → ℕ) × DlState}
        (hr : dlschSchedulerPreProcessorReset inp.bandwidth inp.subframe ch'.vrbMap cc ue nbRbsRequired st = some r) :
        r.2.rballocSub cc (q / inp.bandwidth.rbgSize : ℕ) = 1 :=
      rballocSub_of_marked hr (hplace e he q hq).1 (hplace e he q hq).2
    exact {
      allocated := halloc
      disjoint := (pairwise_disjoint_iff hall halloc hcov).mpr hcomp.apart
      inCarrier := fun e he q hq ↦ (hplace e he q hq).1
      reserved := fun e he q hq _ _ _ _ _ hr ↦ hreserved he hq hr
      unallocated := fun e he q hq _ _ _ _ _ hr hclear _ _ _ _ _ hrun u ↦
        not_allocated hclear (by rw [hreserved he hq hr]; exact one_ne_zero) hrun u }

/-- A carrier of 25 blocks with a random access response to send in each of the first `n` processes. -/
def preambles (n : ℕ) : CommonChannels where
  vrbMap _ := 0
  dcis := []
  bcchAllocPdu := 0
  ra i := { RaTemplate.zeroed with
    raActive := i < n, generateRar := i < n, rnti := 4096 + i, raRnti := 2, preambleIndex := i
    raAllocPdu1 := 0, raAllocPdu2 := 0, msg3Subframe := -1 }
  configured _ := false

def commonInput5MHz (bcchSduLength : ℤ) : CommonInput where
  bandwidth := .rb25
  frameType := .fdd
  subframe := 5
  bcchSduLength := bcchSduLength
  rrcSduLength _ := 0
  round _ := 0
  findUeId _ := none

theorem prbsSeparate_oneResponse :
    ∃ ch', scheduleCommon ncce5MHz (fun _ _ ↦ 32) (commonInput5MHz 17) [] (preambles 1) = some ch' ∧
      PrbsSeparate (commonInput5MHz 17) ch'.vrbMap ch'.dcis := by
  obtain ⟨ch', h⟩ := Option.isSome_iff_exists.mp (by decide +kernel :
    (scheduleCommon ncce5MHz (fun _ _ ↦ 32) (commonInput5MHz 17) [] (preambles 1)).isSome)
  refine ⟨ch', h, (prbsSeparate_iff h).mpr ?_⟩
  have hpassing : (passing ncce5MHz 5 [] ((commonInput5MHz 17).due (preambles 1).ra)).map Prod.fst = [.si, .rar] := by
    decide +kernel
  exact {
    format := fun _ ↦ rfl
    covered := fun _ _ _ ↦ .inr rfl
    apart := hpassing ▸ (by simp [Clash, commonInput5MHz, CommonMessage.isRa]) }

/-- Two preambles in one subframe are answered in the same four blocks. -/
theorem not_prbsSeparate_twoResponses :
    ¬ ∀ getNcceMax getTbsDl inp ulDcis ch ch', scheduleCommon getNcceMax getTbsDl inp ulDcis ch = some ch' →
      PrbsSeparate inp ch'.vrbMap (ch'.dcis.drop ulDcis.length) := by
  intro hall
  have hrun : (scheduleCommon ncce5MHz (fun _ _ ↦ 32) (commonInput5MHz 0) [] (preambles 2)).map
      (fun ch ↦ ch.dcis.map fun e ↦ Bandwidth.rb25.blocksOf .fdd e.dciPdu) = some [some (0, 4), some (0, 4)] := by
    decide +kernel
  obtain ⟨ch', h, hblocks⟩ := Option.map_eq_some_iff.mp hrun
  have hdisj := (hall _ _ _ _ _ _ h).disjoint
  rcases hdcis : ch'.dcis with _ | ⟨e, _ | ⟨e', es⟩⟩ <;> rw [hdcis] at hblocks
  · simp at hblocks
  · simp at hblocks
  · simp only [List.map_cons, List.cons.injEq] at hblocks
    rw [hdcis] at hdisj
    have hapart := (List.pairwise_cons.mp hdisj).1 e' List.mem_cons_self
    exact hapart 0 ⟨_, hblocks.1, by simp [InBlock]⟩ ⟨_, hblocks.2.1, by simp [InBlock]⟩

end EdgeSlice.Mac
