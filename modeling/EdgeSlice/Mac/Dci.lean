import EdgeSlice.Placement
import Mathlib.Data.List.Forall2
import Mathlib.Logic.Function.Iterate
import Mathlib.Algebra.Order.Ring.Nat

namespace EdgeSlice.Mac

open Placement

inductive DciSpace
  | common
  | ue
  deriving DecidableEq, Repr

/-- An entry of the DCI list. Its block has `2 ^ l` control channel elements. -/
structure DciAlloc where
  l : ℕ
  l_le : l ≤ 3
  rnti : UInt16
  searchSpace : DciSpace
  firstCce : ℕ
  deriving DecidableEq, Repr

structure DciPdu where
  numPdcchSymbols : ℕ
  dciAlloc : List DciAlloc
  deriving DecidableEq, Repr

inductive CceError
  | divisionByZero
  | outOfFuel
  deriving DecidableEq, Repr

/-- The hash of 36.213, section 9.1.1, in 32-bit arithmetic. -/
def yk (rnti : UInt16) (subframe : ℕ) : ℕ :=
  (fun y ↦ y * 39827 % 2 ^ 32 % 65537)^[subframe + 1] rnti.toNat

def nbCandidates (L : ℕ) : DciSpace → ℕ
  | .common => if L = 4 then 4 else 2
  | .ue => if L = 1 ∨ L = 2 then 6 else 2

/-- `get_nCCE_offset`: the first free candidate, and the table with its elements
marked. -/
def getNcceOffset (cceTable : ℕ → Bool) (L nCce : ℕ) (searchSpace : DciSpace) (rnti : UInt16)
    (subframe : ℕ) : Except CceError (Option (ℕ × (ℕ → Bool))) :=
  match searchSpace with
  | .common =>
    if L = 0 then .error .divisionByZero
    else
      let candidates := (List.range (min (nbCandidates L .common) (nCce / L))).reverse
      .ok (((candidates.map (· * L)).find? (fun cce ↦ isFree cceTable cce L)).map
        (fun cce ↦ (cce, occupy cceTable cce L)))
  | .ue =>
    if L = 0 ∨ nCce / L = 0 then .error .divisionByZero
    else
      let y := yk rnti subframe % (nCce / L)
      let candidates := (List.range (nbCandidates L .ue)).map (fun m ↦ (y + m) % (nCce / L) * L)
      .ok ((candidates.find? (fun cce ↦
          (List.range L).all (fun i ↦ !(decide (nCce ≤ cce + i) || cceTable (cce + i))))).map
        (fun cce ↦ (cce, occupy cceTable cce L)))

def DciAlloc.record (testOnly : Bool) (d : DciAlloc) (fCce : ℕ) : DciAlloc :=
  if testOnly then d else { d with firstCce := fCce }

/-- One turn of the `try_again` loop of `allocate_CCEs`: whether every DCI found its
block, and the list with the first elements written so far. -/
def allocateAttempt (testOnly : Bool) (nCceMax subframe : ℕ) :
    (ℕ → Bool) → ℕ → List DciAlloc → Except CceError (Bool × List DciAlloc)
  | _, _, [] => .ok (true, [])
  | cceTable, nCce, d :: ds =>
    if nCceMax < nCce + 2 ^ d.l then .ok (false, d :: ds)
    else
      match getNcceOffset cceTable (2 ^ d.l) nCceMax d.searchSpace d.rnti subframe with
      | .error e => .error e
      | .ok none => .ok (false, d :: ds)
      | .ok (some (fCce, cceTable')) =>
        (allocateAttempt testOnly nCceMax subframe cceTable' (nCce + 2 ^ d.l) ds).map
          (fun r ↦ (r.1, d.record testOnly fCce :: r.2))

def tryAgain (getNcceMax : ℕ → ℕ → ℕ) (testOnly : Bool) (subframe : ℕ) :
    ℕ → DciPdu → Except CceError (ℤ × DciPdu)
  | 0, _ => .error .outOfFuel
  | fuel + 1, pdu =>
    match allocateAttempt testOnly (getNcceMax pdu.numPdcchSymbols subframe) subframe
        (fun _ ↦ false) 0 pdu.dciAlloc with
    | .error e => .error e
    | .ok (true, ds) => .ok (0, { pdu with dciAlloc := ds })
    | .ok (false, ds) =>
      if pdu.numPdcchSymbols = 3 then .ok (-1, { pdu with dciAlloc := ds })
      else
        tryAgain getNcceMax testOnly subframe fuel
          { numPdcchSymbols := pdu.numPdcchSymbols + 1, dciAlloc := ds }

/-- `allocate_CCEs`: its result and the PDU it leaves. -/
def allocateCces (getNcceMax : ℕ → ℕ → ℕ) (subframe : ℕ) (testOnly : Bool) (fuel : ℕ)
    (pdu : DciPdu) : Except CceError (ℤ × DciPdu) :=
  tryAgain getNcceMax testOnly subframe fuel { pdu with numPdcchSymbols := 1 }

/-- The candidates of a DCI, in the order in which they are tried. -/
def DciAlloc.candidates (nCce subframe : ℕ) (d : DciAlloc) : List ℕ :=
  match d.searchSpace with
  | .common =>
    ((List.range (min (nbCandidates (2 ^ d.l) .common) (nCce / 2 ^ d.l))).reverse).map (· * 2 ^ d.l)
  | .ue =>
    (List.range (nbCandidates (2 ^ d.l) .ue)).map
      (fun m ↦ (yk d.rnti subframe + m) % (nCce / 2 ^ d.l) * 2 ^ d.l)

def DciAlloc.request (nCce subframe : ℕ) (d : DciAlloc) : Request where
  size := 2 ^ d.l
  starts := d.candidates nCce subframe

/-- The search space of a DCI: the common candidates, or those its RNTI and the subframe
select. -/
def DciAlloc.InSearchSpace (nCce subframe : ℕ) (d : DciAlloc) (cce : ℕ) : Prop :=
  match d.searchSpace with
  | .common => ∃ m < min (nbCandidates (2 ^ d.l) .common) (nCce / 2 ^ d.l), cce = m * 2 ^ d.l
  | .ue =>
    ∃ m < nbCandidates (2 ^ d.l) .ue,
      cce = (yk d.rnti subframe + m) % (nCce / 2 ^ d.l) * 2 ^ d.l

theorem mem_candidates {nCce subframe cce : ℕ} {d : DciAlloc} :
    cce ∈ d.candidates nCce subframe ↔ d.InSearchSpace nCce subframe cce := by
  rw [DciAlloc.candidates, DciAlloc.InSearchSpace]
  cases d.searchSpace <;> simp [eq_comm, and_assoc]

theorem dvd_of_inSearchSpace {nCce subframe cce : ℕ} {d : DciAlloc}
    (h : d.InSearchSpace nCce subframe cce) : 2 ^ d.l ∣ cce := by
  rw [DciAlloc.InSearchSpace] at h
  cases hspace : d.searchSpace with
  | common =>
    simp only [hspace] at h
    obtain ⟨m, -, rfl⟩ := h
    exact Nat.dvd_mul_left _ _
  | ue =>
    simp only [hspace] at h
    obtain ⟨m, -, rfl⟩ := h
    exact Nat.dvd_mul_left _ _

theorem request_aligned (nCce subframe : ℕ) (d : DciAlloc) : (d.request nCce subframe).Aligned :=
  ⟨Nat.two_pow_pos d.l, fun _ hp ↦ dvd_of_inSearchSpace (mem_candidates.mp hp)⟩

theorem block_end_le {nCce L k : ℕ} (hk : k < nCce / L) : k * L + L ≤ nCce := by
  rw [← Nat.succ_mul]
  exact (Nat.mul_le_mul_right L hk).trans (Nat.div_mul_le_self nCce L)

/-- Candidates lie inside the control region. -/
theorem end_le_of_inSearchSpace {nCce subframe cce : ℕ} {d : DciAlloc} (hfits : 2 ^ d.l ≤ nCce)
    (h : d.InSearchSpace nCce subframe cce) : cce + 2 ^ d.l ≤ nCce := by
  have hpos : 0 < nCce / 2 ^ d.l := Nat.div_pos hfits (Nat.two_pow_pos d.l)
  rw [DciAlloc.InSearchSpace] at h
  cases hspace : d.searchSpace with
  | common =>
    simp only [hspace, lt_min_iff] at h
    obtain ⟨m, ⟨-, hm⟩, rfl⟩ := h
    exact block_end_le hm
  | ue =>
    simp only [hspace] at h
    obtain ⟨m, -, rfl⟩ := h
    exact block_end_le (Nat.mod_lt _ hpos)

theorem find?_congr_of_mem {α : Type*} {f g : α → Bool} {l : List α} (h : ∀ a ∈ l, f a = g a) :
    l.find? f = l.find? g := by
  induction l with
  | nil => rfl
  | cons a l ih =>
    rw [List.forall_mem_cons] at h
    rw [List.find?_cons, List.find?_cons, h.1, ih h.2]

/-- Where the block fits into the region at all, nothing is divided by zero and the
search is first fit over the candidates. -/
theorem getNcceOffset_eq {cceTable : ℕ → Bool} {nCce subframe : ℕ} {d : DciAlloc}
    (hfits : 2 ^ d.l ≤ nCce) :
    getNcceOffset cceTable (2 ^ d.l) nCce d.searchSpace d.rnti subframe =
      .ok ((placeOne cceTable (d.request nCce subframe)).map
        (fun cce ↦ (cce, occupy cceTable cce (2 ^ d.l)))) := by
  have hL : 2 ^ d.l ≠ 0 := (Nat.two_pow_pos d.l).ne'
  have hdiv : nCce / 2 ^ d.l ≠ 0 := (Nat.div_pos hfits (Nat.two_pow_pos d.l)).ne'
  have hend : ∀ p ∈ d.candidates nCce subframe, p + 2 ^ d.l ≤ nCce := fun p hp ↦
    end_le_of_inSearchSpace hfits (mem_candidates.mp hp)
  rw [placeOne, DciAlloc.request]
  cases hspace : d.searchSpace with
  | common =>
    rw [getNcceOffset, if_neg hL]
    simp only [DciAlloc.candidates, hspace]
  | ue =>
    rw [getNcceOffset, if_neg (not_or.mpr ⟨hL, hdiv⟩)]
    simp only [Nat.mod_add_mod]
    rw [find?_congr_of_mem (g := fun cce ↦ isFree cceTable cce (2 ^ d.l))]
    · simp only [DciAlloc.candidates, hspace]
    · intro p hp
      rw [DciAlloc.candidates, hspace] at hend
      have hpend := hend p hp
      rw [isFree, Bool.eq_iff_iff, List.all_eq_true, List.all_eq_true]
      refine forall₂_congr (fun i hi ↦ ?_)
      rw [List.mem_range] at hi
      rw [decide_eq_false (show ¬ nCce ≤ p + i by omega), Bool.false_or]

/-- The same DCI but for its first element. -/
def SameDci (d d' : DciAlloc) : Prop := d' = d.record false d'.firstCce

theorem sameDci_refl (d : DciAlloc) : SameDci d d := rfl

theorem sameDci_record (testOnly : Bool) (d : DciAlloc) (fCce : ℕ) :
    SameDci d (d.record testOnly fCce) := by
  cases testOnly <;> rfl

theorem sameDci_trans {d d' d'' : DciAlloc} (h : SameDci d d') (h' : SameDci d' d'') :
    SameDci d d'' := by
  rw [SameDci] at h h' ⊢
  rw [h', h]
  rfl

theorem forall₂_sameDci_trans {ds ds' ds'' : List DciAlloc} (h : List.Forall₂ SameDci ds ds')
    (h' : List.Forall₂ SameDci ds' ds'') : List.Forall₂ SameDci ds ds'' := by
  induction h generalizing ds'' with
  | nil => exact h'
  | cons hd _ ih =>
    obtain ⟨d'', ds'', hd', hds', rfl⟩ := List.forall₂_cons_left_iff.mp h'
    exact .cons (sameDci_trans hd hd') (ih hds')

theorem request_congr {d d' : DciAlloc} (h : SameDci d d') (nCce subframe : ℕ) :
    d'.request nCce subframe = d.request nCce subframe := by
  rw [SameDci] at h
  rw [h]
  rfl

theorem requests_congr {ds ds' : List DciAlloc} (h : List.Forall₂ SameDci ds ds')
    (nCce subframe : ℕ) :
    ds'.map (·.request nCce subframe) = ds.map (·.request nCce subframe) := by
  induction h with
  | nil => rfl
  | cons hd _ ih => rw [List.map_cons, List.map_cons, request_congr hd, ih]

/-- An attempt is first fit for the list, and keeps everything but first elements. -/
theorem allocateAttempt_spec (testOnly : Bool) (nCceMax subframe : ℕ) (cceTable : ℕ → Bool)
    (nCce : ℕ) (ds : List DciAlloc) :
    ∃ ds', List.Forall₂ SameDci ds ds' ∧
      allocateAttempt testOnly nCceMax subframe cceTable nCce ds =
        .ok ((placeAll nCceMax cceTable nCce (ds.map (·.request nCceMax subframe))).isSome, ds') ∧
      ∀ ps, placeAll nCceMax cceTable nCce (ds.map (·.request nCceMax subframe)) = some ps →
        ds' = List.zipWith (DciAlloc.record testOnly) ds ps := by
  induction ds generalizing cceTable nCce with
  | nil => exact ⟨[], .nil, rfl, fun ps _ ↦ rfl⟩
  | cons d ds ih =>
    have hsame : List.Forall₂ SameDci (d :: ds) (d :: ds) := List.forall₂_same.mpr
      (fun d _ ↦ sameDci_refl d)
    have hsize : (d.request nCceMax subframe).size = 2 ^ d.l := rfl
    rw [allocateAttempt, List.map_cons, placeAll, hsize]
    by_cases hcap : nCceMax < nCce + 2 ^ d.l
    · refine ⟨d :: ds, hsame, ?_, ?_⟩
      · rw [if_pos hcap, if_pos hcap]
        rfl
      · intro ps h
        rw [if_pos hcap] at h
        cases h
    · rw [if_neg hcap, if_neg hcap, getNcceOffset_eq (by omega)]
      cases hplace : placeOne cceTable (d.request nCceMax subframe) with
      | none => exact ⟨d :: ds, hsame, rfl, fun ps h ↦ by cases h⟩
      | some fCce =>
        obtain ⟨ds', hds', hrun, hps⟩ := ih (occupy cceTable fCce (2 ^ d.l)) (nCce + 2 ^ d.l)
        refine ⟨d.record testOnly fCce :: ds', .cons (sameDci_record testOnly d fCce) hds', ?_, ?_⟩
        · simp only [Option.map_some, hrun, Option.isSome_map]
          rfl
        · intro ps h
          obtain ⟨rest, hrest, rfl⟩ := Option.map_eq_some_iff.mp h
          rw [hps rest hrest]
          rfl

/-- First fit for the list in a control region of `symbols` symbols. -/
def placement (getNcceMax : ℕ → ℕ → ℕ) (subframe symbols : ℕ) (ds : List DciAlloc) :
    Option (List ℕ) :=
  placeAll (getNcceMax symbols subframe) (fun _ ↦ false) 0
    (ds.map (·.request (getNcceMax symbols subframe) subframe))

theorem placement_congr {ds ds' : List DciAlloc} (h : List.Forall₂ SameDci ds ds')
    (getNcceMax : ℕ → ℕ → ℕ) (subframe symbols : ℕ) :
    placement getNcceMax subframe symbols ds' = placement getNcceMax subframe symbols ds := by
  rw [placement, placement, requests_congr h]

/-- What a run of the `try_again` loop leaves: the first region that holds the list, or
the failure of all of them. -/
inductive Outcome (getNcceMax : ℕ → ℕ → ℕ) (testOnly : Bool) (subframe : ℕ) (pdu : DciPdu) :
    ℤ × DciPdu → Prop
  | placed {pdu' : DciPdu} {ps : List ℕ} (hlow : pdu.numPdcchSymbols ≤ pdu'.numPdcchSymbols)
      (hhigh : pdu'.numPdcchSymbols ≤ 3)
      (hps : placement getNcceMax subframe pdu'.numPdcchSymbols pdu.dciAlloc = some ps)
      (hfirst : testOnly = false → pdu'.dciAlloc.map (·.firstCce) = ps) :
      Outcome getNcceMax testOnly subframe pdu (0, pdu')
  | failed {pdu' : DciPdu} (hnone : ∀ symbols, pdu.numPdcchSymbols ≤ symbols → symbols ≤ 3 →
      placement getNcceMax subframe symbols pdu.dciAlloc = none) :
      Outcome getNcceMax testOnly subframe pdu (-1, pdu')

theorem map_firstCce_record {ds : List DciAlloc} {ps : List ℕ} (h : ds.length = ps.length) :
    (List.zipWith (DciAlloc.record false) ds ps).map (·.firstCce) = ps := by
  induction ds generalizing ps with
  | nil => rw [List.eq_nil_of_length_eq_zero h.symm, List.zipWith_nil_left, List.map_nil]
  | cons d ds ih =>
    cases ps with
    | nil => cases h
    | cons p ps =>
      rw [List.zipWith_cons_cons, List.map_cons, ih (Nat.succ.inj h)]
      rfl

theorem attempt_placement (getNcceMax : ℕ → ℕ → ℕ) (testOnly : Bool) (subframe symbols : ℕ)
    (ds : List DciAlloc) :
    ∃ ds', List.Forall₂ SameDci ds ds' ∧
      ((placement getNcceMax subframe symbols ds = none ∧
          allocateAttempt testOnly (getNcceMax symbols subframe) subframe (fun _ ↦ false) 0 ds =
            .ok (false, ds')) ∨
        ∃ ps, placement getNcceMax subframe symbols ds = some ps ∧
          allocateAttempt testOnly (getNcceMax symbols subframe) subframe (fun _ ↦ false) 0 ds =
            .ok (true, ds') ∧
          (testOnly = false → ds'.map (·.firstCce) = ps)) := by
  obtain ⟨ds', hsame, hrun, hps⟩ :=
    allocateAttempt_spec testOnly (getNcceMax symbols subframe) subframe (fun _ ↦ false) 0 ds
  refine ⟨ds', hsame, ?_⟩
  rw [← placement] at hrun hps
  cases hplace : placement getNcceMax subframe symbols ds with
  | none =>
    rw [hplace] at hrun
    exact .inl ⟨rfl, hrun⟩
  | some ps =>
    rw [hplace] at hrun
    refine .inr ⟨ps, rfl, hrun, fun htest ↦ ?_⟩
    rw [hps ps hplace, htest]
    have hlength := (placeAll_sound hplace).1.length_eq
    rw [List.length_map] at hlength
    exact map_firstCce_record hlength

/-- The loop ends after at most one turn for each region that is left. -/
theorem tryAgain_spec (getNcceMax : ℕ → ℕ → ℕ) (testOnly : Bool) (subframe k : ℕ) (pdu : DciPdu)
    (hk : pdu.numPdcchSymbols + k = 3) :
    ∃ r, (∀ fuel, k < fuel → tryAgain getNcceMax testOnly subframe fuel pdu = .ok r) ∧
      List.Forall₂ SameDci pdu.dciAlloc r.2.dciAlloc ∧ Outcome getNcceMax testOnly subframe pdu r := by
  induction k generalizing pdu with
  | zero =>
    obtain ⟨ds', hsame, hnone | ⟨ps, hps, hrun, hfirst⟩⟩ :=
      attempt_placement getNcceMax testOnly subframe pdu.numPdcchSymbols pdu.dciAlloc
    · refine ⟨(-1, { pdu with dciAlloc := ds' }), fun fuel hfuel ↦ ?_, hsame, .failed ?_⟩
      · obtain ⟨fuel, rfl⟩ := Nat.exists_eq_add_of_lt hfuel
        rw [tryAgain, hnone.2]
        exact if_pos hk
      · intro symbols hlow hhigh
        rw [← hnone.1, show symbols = pdu.numPdcchSymbols by omega]
    · refine ⟨(0, { pdu with dciAlloc := ds' }), fun fuel hfuel ↦ ?_, hsame,
        .placed le_rfl hk.le hps hfirst⟩
      obtain ⟨fuel, rfl⟩ := Nat.exists_eq_add_of_lt hfuel
      rw [tryAgain, hrun]
  | succ k ih =>
    obtain ⟨ds', hsame, hnone | ⟨ps, hps, hrun, hfirst⟩⟩ :=
      attempt_placement getNcceMax testOnly subframe pdu.numPdcchSymbols pdu.dciAlloc
    · obtain ⟨r, hr, hsame', hout⟩ :=
        ih { numPdcchSymbols := pdu.numPdcchSymbols + 1, dciAlloc := ds' } (by simp only; omega)
      refine ⟨r, fun fuel hfuel ↦ ?_, ?_, ?_⟩
      · obtain ⟨fuel, rfl⟩ : ∃ n, fuel = n + 1 := ⟨fuel - 1, by omega⟩
        rw [tryAgain, hnone.2]
        simp only [if_neg (show pdu.numPdcchSymbols ≠ 3 by omega)]
        exact hr fuel (by omega)
      · exact forall₂_sameDci_trans hsame hsame'
      · cases hout with
        | placed hlow hhigh hps hfirst =>
          rw [placement_congr hsame] at hps
          exact .placed (Nat.le_of_succ_le hlow) hhigh hps hfirst
        | failed hfail =>
          refine .failed (fun symbols hlow hhigh ↦ ?_)
          rcases Nat.eq_or_lt_of_le hlow with rfl | hlow
          · exact hnone.1
          · rw [← placement_congr hsame]
            exact hfail symbols hlow hhigh
    · refine ⟨(0, { pdu with dciAlloc := ds' }), fun fuel hfuel ↦ ?_, hsame,
        .placed le_rfl (by simp only; omega) hps hfirst⟩
      obtain ⟨fuel, rfl⟩ : ∃ n, fuel = n + 1 := ⟨fuel - 1, by omega⟩
      rw [tryAgain, hrun]

theorem allocateCces_spec (getNcceMax : ℕ → ℕ → ℕ) (testOnly : Bool) (subframe : ℕ) (pdu : DciPdu) :
    ∃ r, (∀ fuel, 3 ≤ fuel → allocateCces getNcceMax subframe testOnly fuel pdu = .ok r) ∧
      List.Forall₂ SameDci pdu.dciAlloc r.2.dciAlloc ∧
      Outcome getNcceMax testOnly subframe { pdu with numPdcchSymbols := 1 } r := by
  obtain ⟨r, hr, hsame, hout⟩ :=
    tryAgain_spec getNcceMax testOnly subframe 2 { pdu with numPdcchSymbols := 1 } rfl
  exact ⟨r, fun fuel hfuel ↦ hr fuel hfuel, hsame, hout⟩

theorem blocks_of_dcis (ds : List DciAlloc) (nCce subframe : ℕ) :
    blocks (ds.map (·.request nCce subframe)) (ds.map (·.firstCce)) =
      ds.map (fun d ↦ (d.firstCce, 2 ^ d.l)) := by
  rw [blocks, List.zipWith_map, List.zipWith_self]
  rfl

/-- The blocks of the DCIs in the CCE table. -/
structure Allocated (nCceMax subframe : ℕ) (ds : List DciAlloc) : Prop where
  apart : ds.Pairwise (fun d d' ↦
    ∀ cce, ¬ (InBlock d.firstCce (2 ^ d.l) cce ∧ InBlock d'.firstCce (2 ^ d'.l) cce))
  inside : ∀ d ∈ ds, d.firstCce + 2 ^ d.l ≤ nCceMax
  aligned : ∀ d ∈ ds, 2 ^ d.l ∣ d.firstCce
  searchSpace : ∀ d ∈ ds, d.InSearchSpace nCceMax subframe d.firstCce

theorem allocated_of_placement {getNcceMax : ℕ → ℕ → ℕ} {subframe symbols : ℕ} {ds : List DciAlloc}
    (h : placement getNcceMax subframe symbols ds = some (ds.map (·.firstCce))) :
    Allocated (getNcceMax symbols subframe) subframe ds := by
  obtain ⟨hstarts, -, hapart⟩ := placeAll_sound h
  have hsize := size_le_of_placeAll h
  rw [blocks_of_dcis, List.pairwise_map] at hapart
  rw [List.forall₂_map_left_iff, List.forall₂_map_right_iff, List.forall₂_same] at hstarts
  have hspace : ∀ d ∈ ds, d.InSearchSpace (getNcceMax symbols subframe) subframe d.firstCce :=
    fun d hd ↦ mem_candidates.mp (hstarts d hd)
  exact
    { apart := hapart
      inside := fun d hd ↦
        end_le_of_inSearchSpace (hsize _ (List.mem_map_of_mem hd)) (hspace d hd)
      aligned := fun d hd ↦ dvd_of_inSearchSpace (hspace d hd)
      searchSpace := hspace }

/-- `allocate_CCEs` ends, and what it hands out on success is sound. -/
theorem allocate_cces_sound (getNcceMax : ℕ → ℕ → ℕ) (subframe : ℕ) (testOnly : Bool)
    (pdu : DciPdu) :
    ∃ ret pdu',
      (∀ fuel, 3 ≤ fuel → allocateCces getNcceMax subframe testOnly fuel pdu = .ok (ret, pdu')) ∧
      (ret = 0 ∨ ret = -1) ∧
      (testOnly = false → ret = 0 →
        List.Forall₂ SameDci pdu.dciAlloc pdu'.dciAlloc ∧
        Allocated (getNcceMax pdu'.numPdcchSymbols subframe) subframe pdu'.dciAlloc) := by
  obtain ⟨⟨ret, pdu'⟩, hrun, hsame, hout⟩ := allocateCces_spec getNcceMax testOnly subframe pdu
  refine ⟨ret, pdu', hrun, ?_, fun htest hret ↦ ⟨hsame, ?_⟩⟩
  · cases hout with
    | placed => exact .inl rfl
    | failed => exact .inr rfl
  · cases hout with
    | failed => cases hret
    | placed hlow hhigh hps hfirst =>
      rw [← placement_congr hsame, ← hfirst htest] at hps
      exact allocated_of_placement hps

end EdgeSlice.Mac
