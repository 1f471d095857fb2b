import EdgeSlice.Mac.Dci
import EdgeSlice.CInteger
import Mathlib.Data.List.Induction
import Mathlib.Data.List.TakeWhile

namespace EdgeSlice.Mac

open Placement

inductive DciFormat
  | format0
  | format1
  | format1A
  | format1B
  | format1C
  | format1D
  | format1E_2A_M10PRB
  | format2
  | format2A
  | format2B
  | format2C
  | format2D
  | format3
  | format3A
  | format4
  deriving DecidableEq, Repr

def cqi2fmt0Agg : Vector (Vector (Fin 4) 16) 4 := #v[
  #v[3, 3, 3, 2, 2, 1, 1, 1, 1, 0, 0, 0, 0, 0, 0, 0],
  #v[3, 3, 3, 3, 2, 2, 1, 1, 1, 1, 0, 0, 0, 0, 0, 0],
  #v[3, 3, 3, 3, 2, 2, 2, 1, 1, 1, 1, 0, 0, 0, 0, 0],
  #v[3, 3, 3, 3, 2, 2, 2, 2, 1, 1, 1, 1, 0, 0, 0, 0]]

def cqi2fmt1xAgg : Vector (Vector (Fin 4) 16) 4 := #v[
  #v[3, 3, 3, 2, 2, 1, 1, 1, 1, 0, 0, 0, 0, 0, 0, 0],
  #v[3, 3, 3, 3, 2, 2, 1, 1, 1, 1, 0, 0, 0, 0, 0, 0],
  #v[3, 3, 3, 3, 2, 2, 2, 1, 1, 1, 1, 0, 0, 0, 0, 0],
  #v[3, 3, 3, 3, 2, 2, 2, 2, 1, 1, 1, 1, 0, 0, 0, 0]]

def cqi2fmt2xAgg : Vector (Vector (Fin 4) 16) 4 := #v[
  #v[3, 3, 3, 2, 2, 1, 1, 1, 1, 0, 0, 0, 0, 0, 0, 0],
  #v[3, 3, 3, 3, 2, 2, 1, 1, 1, 1, 0, 0, 0, 0, 0, 0],
  #v[3, 3, 3, 3, 2, 2, 2, 1, 1, 1, 1, 0, 0, 0, 0, 0],
  #v[3, 3, 3, 3, 3, 2, 2, 2, 2, 2, 1, 1, 1, 1, 0, 0]]

def getAggregation (bwIndex : Fin 4) (cqi : Fin 16) : DciFormat → Fin 4
  | .format0 => cqi2fmt0Agg[bwIndex][cqi]
  | .format1 | .format1A | .format1B | .format1D => cqi2fmt1xAgg[bwIndex][cqi]
  | .format2 | .format2A | .format2B | .format2C | .format2D => cqi2fmt2xAgg[bwIndex][cqi]
  | .format1C | .format1E_2A_M10PRB | .format3 | .format3A | .format4 => 3

def numDciMax : ℕ := 32

/-- `allocate_CCEs` makes at most three turns, and never divides by zero. -/
def cceAllocationInfeasible (getNcceMax : ℕ → ℕ → ℕ) (subframe : ℕ) (dcis : List DciAlloc)
    (d : DciAlloc) : Bool :=
  if dcis.length = numDciMax then true
  else
    match allocateCces getNcceMax subframe true 3
        { numPdcchSymbols := 1, dciAlloc := dcis ++ [d] } with
    | .ok (ret, _) => decide (ret = -1)
    | .error _ => true

/-- The common, uplink and random access DCIs: each is added if its test passes. -/
def addTested (getNcceMax : ℕ → ℕ → ℕ) (subframe : ℕ) (wanted : List DciAlloc) : List DciAlloc :=
  wanted.foldl (fun dcis d ↦
    if cceAllocationInfeasible getNcceMax subframe dcis d then dcis else dcis ++ [d]) []

def ueDci (rnti : UInt16) (aggregation : Fin 4) : DciAlloc where
  l := aggregation
  l_le := Nat.le_of_lt_succ aggregation.isLt
  rnti := rnti
  searchSpace := .ue
  firstCce := 0

/-- A UE as the loop of `schedule_ue_spec` finds it. `served` tells whether the rest of
its turn finds data and resource blocks to send it in. -/
structure DlschUe where
  rnti : UInt16
  dlCqi : Option (Fin 16)
  transmissionMode : ℕ
  preNbAvailableRbs : ℕ
  served : Bool
  deriving DecidableEq, Repr

/-- A UE that passed the test: the aggregation level of its fake DCI, and that of the DCI
`fill_DLSCH_dci` adds. -/
structure FakeDci where
  rnti : UInt16
  tested : Fin 4
  real : Fin 4
  served : Bool
  deriving DecidableEq, Repr

def testedAggregation (bwIndex : Fin 4) (cqi : Fin 16) : ℕ → Fin 4
  | 1 | 2 | 7 => getAggregation bwIndex cqi .format1
  | 3 => getAggregation bwIndex cqi .format2A
  | _ => 2

def filledAggregation (bwIndex : Fin 4) (cqi : Fin 16) : ℕ → Fin 4
  | 3 => getAggregation bwIndex cqi .format2A
  | _ => getAggregation bwIndex cqi .format1

def DlschUe.fakeDci (bwIndex : Fin 4) (ue : DlschUe) : Option FakeDci :=
  match ue.dlCqi with
  | none => none
  | some cqi =>
    if ue.rnti = 0 ∨ ue.preNbAvailableRbs = 0 then none
    else some
      { rnti := ue.rnti
        tested := testedAggregation bwIndex cqi ue.transmissionMode
        real := filledAggregation bwIndex cqi ue.transmissionMode
        served := ue.served }

def FakeDci.fake (f : FakeDci) : DciAlloc := ueDci f.rnti f.tested

def FakeDci.filled (f : FakeDci) : DciAlloc := ueDci f.rnti f.real

/-- The part of a turn of `schedule_ue_spec` that is about the PDCCH. -/
def ueSpecTurn (getNcceMax : ℕ → ℕ → ℕ) (subframe : ℕ) (bwIndex : Fin 4) (dcis : List DciAlloc)
    (fakes : List FakeDci) (ue : DlschUe) : List FakeDci :=
  match ue.fakeDci bwIndex with
  | none => fakes
  | some f =>
    if cceAllocationInfeasible getNcceMax subframe (dcis ++ fakes.map FakeDci.fake) f.fake then fakes
    else fakes ++ [f]

def ueSpecTurns (getNcceMax : ℕ → ℕ → ℕ) (subframe : ℕ) (bwIndex : Fin 4) (dcis : List DciAlloc)
    (ues : List DlschUe) : List FakeDci :=
  ues.foldl (ueSpecTurn getNcceMax subframe bwIndex dcis) []

def fillDlschDci (dcis : List DciAlloc) (fakes : List FakeDci) : List DciAlloc :=
  dcis ++ (fakes.filter (·.served)).map FakeDci.filled

structure SubframeInput where
  subframe : ℕ
  wanted : List DciAlloc
  ues : List DlschUe
  deriving DecidableEq, Repr

def SubframeInput.dcis (getNcceMax : ℕ → ℕ → ℕ) (inp : SubframeInput) : List DciAlloc :=
  addTested getNcceMax inp.subframe inp.wanted

/-- `eNB_dlsch_ulsch_scheduler`: the final allocation of a subframe. -/
def eNBDlschUlschScheduler (getNcceMax : ℕ → ℕ → ℕ) (bwIndex : Fin 4) (inp : SubframeInput) :
    Except CceError (ℤ × DciPdu) :=
  let dcis := inp.dcis getNcceMax
  let fakes := ueSpecTurns getNcceMax inp.subframe bwIndex dcis inp.ues
  allocateCces getNcceMax inp.subframe false 3
    { numPdcchSymbols := 1, dciAlloc := fillDlschDci dcis fakes }

/-- The scheduler over a run of subframes. `none` is its `abort`. -/
def runSubframes (getNcceMax : ℕ → ℕ → ℕ) (bwIndex : Fin 4) : List SubframeInput → Option (List DciPdu)
  | [] => some []
  | inp :: inps =>
    match eNBDlschUlschScheduler getNcceMax bwIndex inp with
    | .error _ => none
    | .ok (ret, pdu) =>
      if ret ≠ 0 then none else (runSubframes getNcceMax bwIndex inps).map (pdu :: ·)

/-- Some control region holds the list. -/
def Feasible (getNcceMax : ℕ → ℕ → ℕ) (subframe : ℕ) (dcis : List DciAlloc) : Prop :=
  ∃ symbols ps, 1 ≤ symbols ∧ symbols ≤ 3 ∧ placement getNcceMax subframe symbols dcis = some ps

variable {getNcceMax : ℕ → ℕ → ℕ} {subframe : ℕ}

theorem feasible_nil : Feasible getNcceMax subframe [] :=
  ⟨1, [], le_rfl, by omega, rfl⟩

theorem allocateCces_eq_zero {dcis : List DciAlloc} (h : Feasible getNcceMax subframe dcis)
    (testOnly : Bool) (symbols : ℕ) :
    ∃ pdu, allocateCces getNcceMax subframe testOnly 3
      { numPdcchSymbols := symbols, dciAlloc := dcis } = .ok (0, pdu) := by
  obtain ⟨s, ps, hlow, hhigh, hps⟩ := h
  obtain ⟨r, hrun, -, hout⟩ := allocateCces_spec getNcceMax testOnly subframe
    { numPdcchSymbols := symbols, dciAlloc := dcis }
  cases hout with
  | placed => exact ⟨_, hrun 3 le_rfl⟩
  | failed hnone =>
    have hs := hnone s hlow hhigh
    rw [hps] at hs
    cases hs

/-- A test that passes shows the longer list feasible. -/
theorem feasible_of_test {dcis : List DciAlloc} {d : DciAlloc}
    (h : cceAllocationInfeasible getNcceMax subframe dcis d = false) :
    Feasible getNcceMax subframe (dcis ++ [d]) := by
  obtain ⟨r, hrun, -, hout⟩ := allocateCces_spec getNcceMax true subframe
    { numPdcchSymbols := 1, dciAlloc := dcis ++ [d] }
  rw [cceAllocationInfeasible, hrun 3 le_rfl] at h
  cases hout with
  | placed hlow hhigh hps => exact ⟨_, _, hlow, hhigh, hps⟩
  | failed => simp at h

theorem feasible_addTested (wanted : List DciAlloc) :
    Feasible getNcceMax subframe (addTested getNcceMax subframe wanted) := by
  rw [addTested]
  refine List.foldlRecOn wanted _ feasible_nil (fun dcis hdcis d _ ↦ ?_)
  split
  · exact hdcis
  · next htest => exact feasible_of_test (Bool.not_eq_true _ ▸ htest)

section Turns

variable {bwIndex : Fin 4} {dcis : List DciAlloc}

/-- The fakes from the first UE on that ends up unserved. -/
def sinceSkip (fakes : List FakeDci) : List FakeDci := fakes.dropWhile (·.served)

/-- A served UE keeps the level it was tested with, and no UE since the first unserved one
has a lower level. -/
def Stable (fakes : List FakeDci) (f : FakeDci) : Prop :=
  f.served = true → f.real = f.tested ∧ ∀ g ∈ sinceSkip fakes, f.tested ≤ g.tested

instance (fakes : List FakeDci) (f : FakeDci) : Decidable (Stable fakes f) :=
  inferInstanceAs (Decidable (_ → _))

/-- What a turn has to meet: the UE, if its DCI passes the test, is stable. -/
def TurnStable (getNcceMax : ℕ → ℕ → ℕ) (subframe : ℕ) (bwIndex : Fin 4) (dcis : List DciAlloc)
    (fakes : List FakeDci) (ue : DlschUe) : Prop :=
  ∀ f, ue.fakeDci bwIndex = some f →
    cceAllocationInfeasible getNcceMax subframe (dcis ++ fakes.map FakeDci.fake) f.fake = false →
    Stable fakes f

theorem turnStable_of_fakeDci {fakes : List FakeDci} {ue : DlschUe} {f : FakeDci}
    (hf : ue.fakeDci bwIndex = some f) (hstable : Stable fakes f) :
    TurnStable getNcceMax subframe bwIndex dcis fakes ue := by
  intro f' hf' _
  rw [hf] at hf'
  cases hf'
  exact hstable

/-- What holds of the fakes after any number of stable turns. -/
structure StableFakes (getNcceMax : ℕ → ℕ → ℕ) (subframe : ℕ) (dcis : List DciAlloc)
    (fakes : List FakeDci) : Prop where
  feasible : Feasible getNcceMax subframe (dcis ++ fakes.map FakeDci.fake)
  level : ∀ f ∈ fakes, f.served = true → f.real = f.tested
  descending : (sinceSkip fakes).Pairwise (fun g f ↦ f.served = true → f.tested ≤ g.tested)

theorem descending_snoc {fakes : List FakeDci} {f : FakeDci}
    (hfakes : (sinceSkip fakes).Pairwise (fun g f ↦ f.served = true → f.tested ≤ g.tested))
    (hf : Stable fakes f) :
    (sinceSkip (fakes ++ [f])).Pairwise (fun g f ↦ f.served = true → f.tested ≤ g.tested) := by
  rw [sinceSkip, List.dropWhile_append]
  split
  · exact (List.pairwise_singleton _ f).sublist (List.dropWhile_sublist _)
  · refine List.pairwise_append.mpr ⟨hfakes, List.pairwise_singleton _ f, ?_⟩
    intro g hg f' hf' hserved
    rw [List.mem_singleton.mp hf'] at hserved ⊢
    exact (hf hserved).2 g hg

theorem ueSpecTurn_stable {fakes : List FakeDci} {ue : DlschUe}
    (hfakes : StableFakes getNcceMax subframe dcis fakes)
    (hturn : TurnStable getNcceMax subframe bwIndex dcis fakes ue) :
    StableFakes getNcceMax subframe dcis
      (ueSpecTurn getNcceMax subframe bwIndex dcis fakes ue) := by
  rw [ueSpecTurn]
  split
  · exact hfakes
  · next f hfake =>
    split
    · exact hfakes
    · next htest =>
      rw [Bool.not_eq_true] at htest
      have hstable := hturn f hfake htest
      refine ⟨?_, ?_, descending_snoc hfakes.descending hstable⟩
      · rw [List.map_append, ← List.append_assoc]
        exact feasible_of_test htest
      · intro g hg
        rcases List.mem_append.mp hg with hg | hg
        · exact hfakes.level g hg
        · rw [List.mem_singleton.mp hg]
          exact fun hserved ↦ (hstable hserved).1

theorem ueSpecTurns_stable {ues : List DlschUe} (hdcis : Feasible getNcceMax subframe dcis)
    (hturns : ∀ front ue back, ues = front ++ ue :: back →
      TurnStable getNcceMax subframe bwIndex dcis
        (ueSpecTurns getNcceMax subframe bwIndex dcis front) ue) :
    StableFakes getNcceMax subframe dcis (ueSpecTurns getNcceMax subframe bwIndex dcis ues) := by
  induction ues using List.reverseRecOn with
  | nil =>
    refine ⟨?_, fun f hf ↦ absurd hf List.not_mem_nil, .nil⟩
    rw [ueSpecTurns, List.foldl_nil, List.map_nil, List.append_nil]
    exact hdcis
  | append_singleton ues ue ih =>
    have hfront := ih (fun front u back h ↦ hturns front u (back ++ [ue]) (by simp [h]))
    rw [ueSpecTurns, List.foldl_append]
    exact ueSpecTurn_stable hfront (hturns ues ue [] rfl)

/-- The served UEs, as the common beginning and what is kept of the rest. -/
theorem filled_eq {fakes : List FakeDci} (h : ∀ f ∈ fakes, f.served = true → f.real = f.tested) :
    (fakes.filter (·.served)).map FakeDci.filled =
      (fakes.takeWhile (·.served)).map FakeDci.fake ++
        ((sinceSkip fakes).filter (·.served)).map FakeDci.fake := by
  have hlevel : (fakes.filter (·.served)).map FakeDci.filled =
      (fakes.filter (·.served)).map FakeDci.fake := by
    refine List.map_congr_left (fun f hf ↦ ?_)
    obtain ⟨hmem, hserved⟩ := List.mem_filter.mp hf
    rw [FakeDci.filled, FakeDci.fake, h f hmem hserved]
  have hfront : (fakes.takeWhile (·.served)).filter (·.served) = fakes.takeWhile (·.served) :=
    List.filter_eq_self.mpr (fun f hf ↦ List.mem_takeWhile_imp hf)
  rw [hlevel]
  conv_lhs => rw [← List.takeWhile_append_dropWhile (p := (·.served)) (l := fakes)]
  rw [List.filter_append, hfront, List.map_append, sinceSkip]

/-- The fakes since the first unserved UE, as requests that stay or are dropped. -/
def requestsSinceSkip (nCce subframe : ℕ) (fakes : List FakeDci) : List (Request × Bool) :=
  (sinceSkip fakes).map (fun f ↦ (f.fake.request nCce subframe, f.served))

theorem kept_requestsSinceSkip (nCce subframe : ℕ) (fakes : List FakeDci) :
    kept (requestsSinceSkip nCce subframe fakes) =
      (((sinceSkip fakes).filter (·.served)).map FakeDci.fake).map
        (·.request nCce subframe) := by
  rw [kept, requestsSinceSkip, List.filter_map, List.map_map, List.map_map]
  rfl

/-- The DCIs that remain fit where the tested ones did. -/
theorem feasible_fillDlschDci {fakes : List FakeDci}
    (h : StableFakes getNcceMax subframe dcis fakes) :
    Feasible getNcceMax subframe (fillDlschDci dcis fakes) := by
  obtain ⟨symbols, ps, hlow, hhigh, hps⟩ := h.feasible
  let nCce := getNcceMax symbols subframe
  have haligned : ∀ a ∈ requestsSinceSkip nCce subframe fakes, a.1.Aligned := by
    intro a ha
    obtain ⟨f, -, rfl⟩ := List.mem_map.mp ha
    exact request_aligned nCce subframe f.fake
  have hdvd : KeptDivides (requestsSinceSkip nCce subframe fakes) := by
    refine List.pairwise_map.mpr (h.descending.imp (fun {g f} hgf hserved ↦ ?_))
    exact Nat.pow_dvd_pow 2 (hgf hserved)
  have hsplit : dcis ++ fakes.map FakeDci.fake =
      (dcis ++ (fakes.takeWhile (·.served)).map FakeDci.fake) ++
        (sinceSkip fakes).map FakeDci.fake := by
    rw [List.append_assoc, ← List.map_append, sinceSkip, List.takeWhile_append_dropWhile]
  have hrest : ((sinceSkip fakes).map FakeDci.fake).map (·.request nCce subframe) =
      (requestsSinceSkip nCce subframe fakes).map (·.1) := by
    rw [requestsSinceSkip, List.map_map, List.map_map]
    rfl
  rw [placement, hsplit, List.map_append, hrest] at hps
  obtain ⟨ps', hps'⟩ := placeAll_drop haligned hdvd hps
  refine ⟨symbols, ps', hlow, hhigh, ?_⟩
  rw [fillDlschDci, filled_eq h.level, placement, ← List.append_assoc, List.map_append,
    ← kept_requestsSinceSkip]
  exact hps'

end Turns

/-- In every turn for a UE, a UE that passes the test and is served keeps its tested level
and is no larger than those since the first unserved one. -/
def SubframeStable (getNcceMax : ℕ → ℕ → ℕ) (bwIndex : Fin 4) (inp : SubframeInput) : Prop :=
  ∀ front ue back, inp.ues = front ++ ue :: back →
    TurnStable getNcceMax inp.subframe bwIndex (inp.dcis getNcceMax)
      (ueSpecTurns getNcceMax inp.subframe bwIndex (inp.dcis getNcceMax) front) ue

theorem scheduler_allocates {bwIndex : Fin 4} {inp : SubframeInput}
    (h : SubframeStable getNcceMax bwIndex inp) :
    ∃ pdu, eNBDlschUlschScheduler getNcceMax bwIndex inp = .ok (0, pdu) :=
  allocateCces_eq_zero
    (feasible_fillDlschDci (ueSpecTurns_stable (feasible_addTested inp.wanted) h)) false 1

/-- A run of stable subframes never reaches the `abort`. -/
theorem run_subframes_never_aborts (getNcceMax : ℕ → ℕ → ℕ) (bwIndex : Fin 4)
    (inps : List SubframeInput) (h : ∀ inp ∈ inps, SubframeStable getNcceMax bwIndex inp) :
    ∃ pdus, runSubframes getNcceMax bwIndex inps = some pdus := by
  induction inps with
  | nil => exact ⟨[], rfl⟩
  | cons inp inps ih =>
    obtain ⟨hinp, hinps⟩ := List.forall_mem_cons.mp h
    obtain ⟨pdu, hpdu⟩ := scheduler_allocates hinp
    obtain ⟨pdus, hpdus⟩ := ih hinps
    refine ⟨pdu :: pdus, ?_⟩
    rw [runSubframes, hpdu]
    simp only [ne_eq, not_true_eq_false, if_false, hpdus, Option.map_some]

/-- The control regions of a 5 MHz carrier: 3, 12 or 20 elements. -/
def ncce5MHz (symbols _subframe : ℕ) : ℕ :=
  if symbols = 1 then 3 else if symbols = 2 then 12 else 20

def staysWithoutData : DlschUe := ⟨0x1006, some 4, 1, 2, false⟩
def movesForward : DlschUe := ⟨0x1001, some 0, 1, 2, true⟩
def losesItsPlace : DlschUe := ⟨0x101f, some 4, 1, 2, true⟩

theorem run_subframes_never_aborts_descending :
    ∃ pdus, runSubframes ncce5MHz 1
      [⟨0, [], [movesForward, staysWithoutData, losesItsPlace]⟩] = some pdus := by
  refine run_subframes_never_aborts ncce5MHz 1 _ (List.forall_mem_singleton.mpr ?_)
  intro front ue back h
  rcases front with _ | ⟨a, _ | ⟨b, _ | ⟨c, front⟩⟩⟩ <;>
    simp only [List.cons_append, List.nil_append, List.cons.injEq] at h
  · obtain ⟨rfl, -⟩ := h
    exact turnStable_of_fakeDci rfl (by decide +kernel)
  · obtain ⟨rfl, rfl, -⟩ := h
    exact turnStable_of_fakeDci rfl (by decide +kernel)
  · obtain ⟨rfl, rfl, rfl, -⟩ := h
    exact turnStable_of_fakeDci rfl (by decide +kernel)
  · exact absurd h.2.2.2.symm (by simp)

theorem not_run_subframes_never_aborts :
    ¬ ∀ (getNcceMax : ℕ → ℕ → ℕ) (bwIndex : Fin 4) (inps : List SubframeInput),
      ∃ pdus, runSubframes getNcceMax bwIndex inps = some pdus := by
  intro h
  obtain ⟨pdus, hrun⟩ := h ncce5MHz 1
    [⟨0, [], [staysWithoutData, movesForward, losesItsPlace]⟩]
  have hnone : (runSubframes ncce5MHz 1
      [⟨0, [], [staysWithoutData, movesForward, losesItsPlace]⟩]).isNone = true := by
    decide +kernel
  rw [hrun] at hnone
  cases hnone

end EdgeSlice.Mac
