import EdgeSlice.Mac.UlschHeader
import Mathlib.Algebra.Group.Action.Defs
import Mathlib.Algebra.Order.BigOperators.Group.List

namespace EdgeSlice.Mac

open Chain

/-- A turn of the parser on a host that stops it at the first octet read outside
the transport block. The octets of a turn are those it moves over. -/
def guardedStep (mem : ℕ → ℕ) (tbLength : ℕ) (s : ParseState) :
    Except ParseError (Bool × ParseState) :=
  if tbLength ≤ s.ptr then .error .overrun
  else
    match parseStep extendedPowerHeadroom ulControl mem tbLength s with
    | .error e => .error e
    | .ok (more, s') => if s'.ptr ≤ tbLength then .ok (more, s') else .error .overrun

def guardedUlschHeader (mem : ℕ → ℕ) (tbLength : ℕ) : Except ParseError ParseState :=
  loop .overrun (guardedStep mem tbLength) tbLength .start

/-- The guarded parser either reports an access outside the block or the arrays,
or it is the parser. -/
theorem guardedUlschHeader_refines (mem : ℕ → ℕ) (tbLength : ℕ) :
    guardedUlschHeader mem tbLength = .error .overrun ∨
      guardedUlschHeader mem tbLength = parseUlschHeader mem tbLength := by
  apply loop_restrict
  intro s
  unfold guardedStep
  split
  · exact .inl rfl
  · split
    · next h => exact .inr h.symm
    · next h =>
      split
      · exact .inr h.symm
      · exact .inl rfl

/-- The parser rejects the block, or it stays inside the block and its arrays and
leaves room for what it found. -/
def UlschHeaderSafe (mem : ℕ → ℕ) (tbLength : ℕ) : Prop :=
  guardedUlschHeader mem tbLength = .error .macphyExit ∨
    ∃ s, guardedUlschHeader mem tbLength = .ok s ∧ s.ptr ≤ tbLength ∧
      s.ces.length ≤ maxNumCe ∧ s.lcids.length ≤ nbRbMax ∧ s.lengths.length ≤ nbRbMax ∧
      s.ptr + (s.ces.map ulCeLength).sum + s.lengths.sum ≤ tbLength

section Header

variable (mem : ℕ → ℕ)

/-- The octets of the subheader at `p`: only an SDU that others follow has a
length. -/
def subheaderOctets (p : ℕ) : ℕ :=
  if lcidField (mem p) < extendedPowerHeadroom ∧ eField (mem p) = 1 then
    if fField (mem (p + 1)) = 1 then 3 else 2
  else 1

def explicitLength (p : ℕ) : ℕ :=
  if lcidField (mem p) < extendedPowerHeadroom ∧ eField (mem p) = 1 then
    if fField (mem (p + 1)) = 1 then lField (mem (p + 1)) * 256 + mem (p + 2) % 256
    else lField (mem (p + 1))
  else 0

/-- Where the subheader number `k` starts. -/
def subheaderAt : ℕ → ℕ
  | 0 => 0
  | k + 1 => subheaderAt k + subheaderOctets mem (subheaderAt k)

def lcidAt (k : ℕ) : ℕ := lcidField (mem (subheaderAt mem k))

def moreAt (k : ℕ) : Bool := eField (mem (subheaderAt mem k)) == 1

/-- The SDUs and the control elements among the first `n` subheaders. -/
def headerSdus (n : ℕ) : List ℕ :=
  ((List.range n).map (lcidAt mem)).filter (fun lcid ↦ lcid < extendedPowerHeadroom)

def headerCes (n : ℕ) : List ℕ :=
  ((List.range n).map (lcidAt mem)).filter
    (fun lcid ↦ extendedPowerHeadroom ≤ lcid ∧ lcid ≠ shortPaddingLcid)

def explicitTotal (n : ℕ) : ℕ :=
  ((List.range n).map (fun k ↦ explicitLength mem (subheaderAt mem k))).sum

def KnownUlLcid (lcid : ℕ) : Prop :=
  lcid < extendedPowerHeadroom ∨ lcid = shortPaddingLcid ∨ lcid = longBsrLcid ∨
    lcid = crntiLcid ∨ lcid = powerHeadroomLcid ∨ lcid = truncatedBsrLcid ∨ lcid = shortBsrLcid

instance (lcid : ℕ) : Decidable (KnownUlLcid lcid) := by
  unfold KnownUlLcid
  infer_instance

/-- The block begins with a header of `n + 1` subheaders for which it has room. -/
structure HeaderFits (tbLength n : ℕ) : Prop where
  more : ∀ k < n, moreAt mem k = true
  last : moreAt mem n = false
  known : ∀ k ≤ n, KnownUlLcid (lcidAt mem k)
  fewCes : (headerCes mem (n + 1)).length ≤ maxNumCe
  fewSdus : (headerSdus mem (n + 1)).length ≤ nbRbMax
  room : subheaderAt mem (n + 1) + ((headerCes mem (n + 1)).map ulCeLength).sum +
    explicitTotal mem (n + 1) ≤ tbLength

/-- An unknown control element ends the block's first `n` subheaders. -/
structure HeaderRefused (tbLength n : ℕ) : Prop where
  more : ∀ k < n, moreAt mem k = true
  known : ∀ k < n, KnownUlLcid (lcidAt mem k)
  unknown : ¬ KnownUlLcid (lcidAt mem n)
  inside : subheaderAt mem n < tbLength
  fewCes : (headerCes mem n).length < maxNumCe
  fewSdus : (headerSdus mem n).length ≤ nbRbMax

end Header

section Turns

variable (mem : ℕ → ℕ) (tbLength : ℕ)

/-- What a turn makes of the variables when it goes through. -/
def advance (s : ParseState) : ParseState :=
  let lcid := lcidField (mem s.ptr)
  if lcid < extendedPowerHeadroom then
    { s with
      ptr := s.ptr + subheaderOctets mem s.ptr
      lcids := s.lcids ++ [lcid]
      lengths := s.lengths ++ [if eField (mem s.ptr) = 1 then explicitLength mem s.ptr
        else implicitLength tbLength s] }
  else if lcid = shortPaddingLcid then
    { s with ptr := s.ptr + 1, numPadding := s.numPadding + 1 }
  else { s with ptr := s.ptr + 1, ces := s.ces ++ [lcid], ceLen := uint16 (s.ceLen + ulCeLength lcid) }

/-- The arrays have a free entry for the subheader. -/
def HasEntry (s : ParseState) : Prop :=
  (lcidField (mem s.ptr) < extendedPowerHeadroom → s.lcids.length < nbRbMax) ∧
    (extendedPowerHeadroom ≤ lcidField (mem s.ptr) → lcidField (mem s.ptr) ≠ shortPaddingLcid →
      s.ces.length < maxNumCe)

instance (s : ParseState) : Decidable (HasEntry mem s) := by
  unfold HasEntry
  infer_instance

theorem ulControl_eq (s : ParseState) (more : Bool) {lcid : ℕ}
    (hlow : extendedPowerHeadroom ≤ lcid) (hpad : lcid ≠ shortPaddingLcid) :
    ulControl s more lcid =
      if KnownUlLcid lcid then .ok (ulCeLength lcid) else .error .macphyExit := by
  unfold ulControl ulCeLength KnownUlLcid
  by_cases h₁ : lcid = longBsrLcid
  · simp [h₁]
  · by_cases h₂ : lcid = crntiLcid
    · simp [h₂, crntiLcid, longBsrLcid]
    · simp [h₁, h₂, hpad, not_lt.mpr hlow]

theorem parseStep_eq (s : ParseState) :
    parseStep extendedPowerHeadroom ulControl mem tbLength s =
      if ¬ HasEntry mem s then .error .overrun
      else if KnownUlLcid (lcidField (mem s.ptr)) then
        .ok (eField (mem s.ptr) == 1, advance mem tbLength s)
      else .error .macphyExit := by
  by_cases hsdu : lcidField (mem s.ptr) < extendedPowerHeadroom
  · have hknown : KnownUlLcid (lcidField (mem s.ptr)) := .inl hsdu
    have hentry : HasEntry mem s ↔ s.lcids.length < nbRbMax :=
      ⟨fun h ↦ h.1 hsdu, fun h ↦ ⟨fun _ ↦ h, fun hlow ↦ by omega⟩⟩
    by_cases hroom : s.lcids.length < nbRbMax
    · rw [if_neg (not_not.mpr (hentry.mpr hroom)), if_pos hknown]
      by_cases hmore : eField (mem s.ptr) = 1
      · by_cases hlong : fField (mem (s.ptr + 1)) = 1
        · simp [parseStep, hsdu, hroom, hmore, hlong, advance, subheaderOctets, explicitLength]
        · simp [parseStep, hsdu, hroom, hmore, hlong, advance, subheaderOctets, explicitLength]
      · have hfalse : (eField (mem s.ptr) == 1) = false := by simp [hmore]
        simp [parseStep, hsdu, hroom, hmore, hfalse, advance, subheaderOctets]
    · rw [if_pos (fun h ↦ hroom (hentry.mp h))]
      simp only [parseStep, if_pos hsdu, if_neg hroom]
  · have hlow : extendedPowerHeadroom ≤ lcidField (mem s.ptr) := not_lt.mp hsdu
    by_cases hpad : lcidField (mem s.ptr) = shortPaddingLcid
    · have hknown : KnownUlLcid (lcidField (mem s.ptr)) := .inr (.inl hpad)
      have hentry : HasEntry mem s := ⟨fun h ↦ absurd h hsdu, fun _ h ↦ absurd hpad h⟩
      rw [if_neg (not_not.mpr hentry), if_pos hknown]
      simp only [parseStep, if_neg hsdu, if_pos hpad, advance]
    · have hentry : HasEntry mem s ↔ s.ces.length < maxNumCe :=
        ⟨fun h ↦ h.2 hlow hpad, fun h ↦ ⟨fun h' ↦ absurd h' hsdu, fun _ _ ↦ h⟩⟩
      by_cases hroom : s.ces.length < maxNumCe
      · rw [if_neg (not_not.mpr (hentry.mpr hroom))]
        simp only [parseStep, if_neg hsdu, if_neg hpad, if_pos hroom, ulControl_eq _ _ hlow hpad,
          advance]
        by_cases hknown : KnownUlLcid (lcidField (mem s.ptr))
        · rw [if_pos hknown, if_pos hknown]
        · rw [if_neg hknown, if_neg hknown]
      · rw [if_pos (fun h ↦ hroom (hentry.mp h))]
        simp only [parseStep, if_neg hsdu, if_neg hpad, if_neg hroom]

theorem advance_ptr (s : ParseState) :
    (advance mem tbLength s).ptr = s.ptr + subheaderOctets mem s.ptr := by
  by_cases hsdu : lcidField (mem s.ptr) < extendedPowerHeadroom
  · simp only [advance, if_pos hsdu]
  · have hone : subheaderOctets mem s.ptr = 1 := if_neg (fun h ↦ hsdu h.1)
    rw [hone]
    simp only [advance, if_neg hsdu]
    split <;> rfl

/-- The variables after `k` turns that went through. -/
def stateAt : ℕ → ParseState
  | 0 => .start
  | k + 1 => advance mem tbLength (stateAt k)

theorem stateAt_ptr (k : ℕ) : (stateAt mem tbLength k).ptr = subheaderAt mem k := by
  induction k with
  | zero => rfl
  | succ k ih => rw [stateAt, advance_ptr, ih, subheaderAt]

theorem range_succ_filter (p : ℕ → Bool) (k : ℕ) :
    ((List.range (k + 1)).map (lcidAt mem)).filter p =
      ((List.range k).map (lcidAt mem)).filter p ++ if p (lcidAt mem k) then [lcidAt mem k] else [] := by
  rw [List.range_succ, List.map_append, List.filter_append, List.map_singleton]
  cases h : p (lcidAt mem k) <;> simp [h]

theorem stateAt_found (k : ℕ) :
    (stateAt mem tbLength k).ces = headerCes mem k ∧
      (stateAt mem tbLength k).lcids = headerSdus mem k ∧
      (stateAt mem tbLength k).lengths.length = (headerSdus mem k).length ∧
      (stateAt mem tbLength k).ceLen = uint16 ((headerCes mem k).map ulCeLength).sum := by
  induction k with
  | zero => exact ⟨rfl, rfl, rfl, rfl⟩
  | succ k ih =>
    obtain ⟨hces, hlcids, hlengths, hlen⟩ := ih
    have hlcid : lcidField (mem (stateAt mem tbLength k).ptr) = lcidAt mem k := by
      rw [stateAt_ptr, lcidAt]
    rw [stateAt, headerCes, headerSdus, range_succ_filter, range_succ_filter, ← headerCes,
      ← headerSdus]
    by_cases hsdu : lcidAt mem k < extendedPowerHeadroom
    · have hno : ¬ extendedPowerHeadroom ≤ lcidAt mem k := not_le.mpr hsdu
      simp [advance, hlcid, hsdu, hno, hces, hlcids, hlengths, hlen]
    · by_cases hpad : lcidAt mem k = shortPaddingLcid
      · have hhigh : ¬ shortPaddingLcid < extendedPowerHeadroom := by decide
        simp [advance, hlcid, hpad, hhigh, hces, hlcids, hlengths, hlen]
      · have hhigh := not_lt.mp hsdu
        have hsum : ((headerCes mem k ++ [lcidAt mem k]).map ulCeLength).sum =
            ((headerCes mem k).map ulCeLength).sum + ulCeLength (lcidAt mem k) := by
          rw [List.map_append, List.sum_append]
          rfl
        refine ⟨by simp [advance, hlcid, hsdu, hpad, hhigh, hces], ?_, ?_, ?_⟩
        · simp [advance, hlcid, hsdu, hpad, hlcids]
        · simp [advance, hlcid, hsdu, hpad, hlengths]
        · rw [if_pos (decide_eq_true ⟨hhigh, hpad⟩), hsum, ← uint16_add, ← hlen]
          simp only [advance, hlcid, hsdu, hpad, if_false]

theorem stateAt_lengths {k : ℕ} (hmore : ∀ i < k, moreAt mem i = true) :
    (stateAt mem tbLength k).lengths.sum = explicitTotal mem k := by
  induction k with
  | zero => rfl
  | succ k ih =>
    have hk : eField (mem (subheaderAt mem k)) = 1 := by
      simpa [moreAt] using hmore k (Nat.lt_succ_self k)
    have hsum := ih (fun i hi ↦ hmore i (by omega))
    rw [explicitTotal, List.range_succ, List.map_append, List.sum_append, ← explicitTotal, ← hsum,
      stateAt]
    by_cases hsdu : lcidField (mem (subheaderAt mem k)) < extendedPowerHeadroom
    · simp [advance, stateAt_ptr, hsdu, hk]
    · have hzero : explicitLength mem (subheaderAt mem k) = 0 := if_neg (fun h ↦ hsdu h.1)
      by_cases hpad : lcidField (mem (subheaderAt mem k)) = shortPaddingLcid
      · have hhigh : ¬ shortPaddingLcid < extendedPowerHeadroom := by decide
        simp [advance, stateAt_ptr, hpad, hhigh, hzero]
      · simp [advance, stateAt_ptr, hsdu, hpad, hzero]

variable {mem tbLength}

theorem guardedStep_ok {s s' : ParseState} {more : Bool} :
    guardedStep mem tbLength s = .ok (more, s') ↔
      (s.ptr < tbLength ∧ (advance mem tbLength s).ptr ≤ tbLength ∧ HasEntry mem s ∧
        KnownUlLcid (lcidField (mem s.ptr))) ∧
      more = (eField (mem s.ptr) == 1) ∧ s' = advance mem tbLength s := by
  unfold guardedStep
  rw [parseStep_eq]
  by_cases hptr : tbLength ≤ s.ptr
  · simp [hptr]
  · by_cases hentry : HasEntry mem s
    · by_cases hknown : KnownUlLcid (lcidField (mem s.ptr))
      · by_cases hend : (advance mem tbLength s).ptr ≤ tbLength
        · simp [hptr, hentry, hknown, hend, not_le.mp hptr, eq_comm]
        · simp [hptr, hentry, hknown, hend]
      · simp [hptr, hentry, hknown]
    · simp [hptr, hentry]

theorem guardedStep_exit {s : ParseState} :
    guardedStep mem tbLength s = .error .macphyExit ↔
      s.ptr < tbLength ∧ HasEntry mem s ∧ ¬ KnownUlLcid (lcidField (mem s.ptr)) := by
  unfold guardedStep
  rw [parseStep_eq]
  by_cases hptr : tbLength ≤ s.ptr
  · simp [hptr]
  · by_cases hentry : HasEntry mem s
    · by_cases hknown : KnownUlLcid (lcidField (mem s.ptr))
      · by_cases hend : (advance mem tbLength s).ptr ≤ tbLength <;>
          simp [hptr, hentry, hknown, hend]
      · simp [hptr, hentry, hknown, not_le.mp hptr]
    · simp [hptr, hentry]

theorem subheaderOctets_pos (p : ℕ) : 0 < subheaderOctets mem p := by
  unfold subheaderOctets
  split
  · split <;> decide
  · decide

theorem subheaderAt_mono : Monotone (subheaderAt mem) :=
  monotone_nat_of_le_succ (fun _ ↦ Nat.le_add_right _ _)

theorem le_subheaderAt (k : ℕ) : k ≤ subheaderAt mem k := by
  induction k with
  | zero => exact Nat.le_refl 0
  | succ k ih =>
    have hpos := @subheaderOctets_pos mem (subheaderAt mem k)
    rw [subheaderAt]
    omega

theorem headerCount_succ (k : ℕ) :
    (headerSdus mem (k + 1)).length = (headerSdus mem k).length +
        (if lcidAt mem k < extendedPowerHeadroom then 1 else 0) ∧
      (headerCes mem (k + 1)).length = (headerCes mem k).length +
        (if extendedPowerHeadroom ≤ lcidAt mem k ∧ lcidAt mem k ≠ shortPaddingLcid then 1 else 0) := by
  rw [headerSdus, headerCes, range_succ_filter, range_succ_filter, ← headerSdus, ← headerCes,
    List.length_append, List.length_append]
  by_cases hlow : lcidAt mem k < extendedPowerHeadroom
  · simp [hlow, not_le.mpr hlow]
  · by_cases hpad : lcidAt mem k = shortPaddingLcid
    · have hhigh : ¬ shortPaddingLcid < extendedPowerHeadroom := by decide
      simp [hpad, hhigh]
    · simp [hlow, hpad, not_lt.mp hlow]

/-- The arrays hold what the first `n` subheaders announce. -/
def FewElements (mem : ℕ → ℕ) (n : ℕ) : Prop :=
  (headerSdus mem n).length ≤ nbRbMax ∧ (headerCes mem n).length ≤ maxNumCe

theorem fewElements_succ {k : ℕ} :
    FewElements mem (k + 1) ↔ FewElements mem k ∧ HasEntry mem (stateAt mem tbLength k) := by
  obtain ⟨hces, hlcids, -, -⟩ := stateAt_found mem tbLength k
  obtain ⟨hsdu, hce⟩ := @headerCount_succ mem k
  have hlcid : lcidField (mem (stateAt mem tbLength k).ptr) = lcidAt mem k := by
    rw [stateAt_ptr, lcidAt]
  rw [FewElements, FewElements, HasEntry, hces, hlcids, hlcid, hsdu, hce]
  by_cases hlow : lcidAt mem k < extendedPowerHeadroom
  · have hno : ¬ extendedPowerHeadroom ≤ lcidAt mem k := not_le.mpr hlow
    simp only [hlow, hno, if_true, false_and, if_false, true_implies, false_implies, and_true]
    omega
  · by_cases hpad : lcidAt mem k = shortPaddingLcid
    · have hhigh : ¬ shortPaddingLcid < extendedPowerHeadroom := by decide
      simp [hpad, hhigh]
    · simp only [hlow, not_lt.mp hlow, hpad, if_false, ne_eq, not_false_eq_true, and_self, if_true,
        false_implies, true_implies, true_and]
      omega

theorem turn_iff {k : ℕ} {more : Bool} :
    guardedStep mem tbLength (stateAt mem tbLength k) =
        .ok (more, stateAt mem tbLength (k + 1)) ↔
      (subheaderAt mem (k + 1) ≤ tbLength ∧ HasEntry mem (stateAt mem tbLength k) ∧
        KnownUlLcid (lcidAt mem k)) ∧ more = moreAt mem k := by
  have hpos := @subheaderOctets_pos mem (subheaderAt mem k)
  have hnext : (stateAt mem tbLength (k + 1)).ptr = subheaderAt mem (k + 1) := stateAt_ptr _ _ _
  rw [guardedStep_ok, ← stateAt, hnext, stateAt_ptr, subheaderAt, moreAt, lcidAt]
  constructor
  · intro ⟨⟨_, hend, hentry, hknown⟩, hmore, _⟩
    exact ⟨⟨hend, hentry, hknown⟩, hmore⟩
  · intro ⟨⟨hend, hentry, hknown⟩, hmore⟩
    exact ⟨⟨by omega, hend, hentry, hknown⟩, hmore, rfl⟩

theorem path_iff {n : ℕ} :
    (∀ k < n, guardedStep mem tbLength (stateAt mem tbLength k) =
        .ok (true, stateAt mem tbLength (k + 1))) ↔
      (∀ k < n, moreAt mem k = true) ∧ (∀ k < n, KnownUlLcid (lcidAt mem k)) ∧
        FewElements mem n ∧ subheaderAt mem n ≤ tbLength := by
  induction n with
  | zero => simp [FewElements, headerSdus, headerCes, subheaderAt]
  | succ n ih =>
    have hmono : subheaderAt mem n ≤ subheaderAt mem (n + 1) := subheaderAt_mono (Nat.le_succ n)
    rw [Nat.forall_lt_succ_right, Nat.forall_lt_succ_right, Nat.forall_lt_succ_right, ih, turn_iff,
      @fewElements_succ _ tbLength]
    constructor
    · intro ⟨⟨hmore, hknown, hfew, _⟩, ⟨hend, hentry, hlast⟩, hflag⟩
      exact ⟨⟨hmore, hflag.symm⟩, ⟨hknown, hlast⟩, ⟨hfew, hentry⟩, hend⟩
    · intro ⟨⟨hmore, hflag⟩, ⟨hknown, hlast⟩, ⟨hfew, hentry⟩, hend⟩
      exact ⟨⟨hmore, hknown, hfew, hmono.trans hend⟩, ⟨hend, hentry, hlast⟩, hflag.symm⟩

/-- The lengths found are within the block exactly when the header, the control
elements and the explicit lengths are. -/
theorem lengths_fit {n : ℕ} (hmore : ∀ k < n, moreAt mem k = true)
    (hlast : moreAt mem n = false) (hfew : FewElements mem (n + 1)) :
    subheaderAt mem (n + 1) + ((headerCes mem (n + 1)).map ulCeLength).sum +
        (stateAt mem tbLength (n + 1)).lengths.sum ≤ tbLength ↔
      subheaderAt mem (n + 1) + ((headerCes mem (n + 1)).map ulCeLength).sum +
        explicitTotal mem (n + 1) ≤ tbLength := by
  have hsum := stateAt_lengths mem tbLength hmore
  have hclear : eField (mem (subheaderAt mem n)) ≠ 1 := by
    intro h
    simp [moreAt, h] at hlast
  have hnone : explicitLength mem (subheaderAt mem n) = 0 := if_neg (fun h ↦ hclear h.2)
  have htotal : explicitTotal mem (n + 1) = explicitTotal mem n := by
    rw [explicitTotal, List.range_succ, List.map_append, List.sum_append, ← explicitTotal]
    simp [hnone]
  rw [htotal, stateAt]
  by_cases hsdu : lcidField (mem (subheaderAt mem n)) < extendedPowerHeadroom
  · have hone : subheaderAt mem (n + 1) = subheaderAt mem n + 1 := by
      rw [subheaderAt, subheaderOctets, if_neg (fun h ↦ hclear h.2)]
    have hces : headerCes mem (n + 1) = headerCes mem n := by
      rw [headerCes, range_succ_filter, ← headerCes]
      have hno : ¬ extendedPowerHeadroom ≤ lcidAt mem n := not_le.mpr hsdu
      simp [hno]
    have hlen := (stateAt_found mem tbLength n).2.2.2
    have himplicit : (advance mem tbLength (stateAt mem tbLength n)).lengths.sum =
        explicitTotal mem n + implicitLength tbLength (stateAt mem tbLength n) := by
      simp [advance, stateAt_ptr, hsdu, hclear, hsum]
    have hpayload : ((headerCes mem n).map ulCeLength).sum ≤ 15 := by
      have hfive := hfew.2
      rw [hces] at hfive
      have hle : ∀ x ∈ (headerCes mem n).map ulCeLength, x ≤ 3 := by
        intro x hx
        obtain ⟨c, -, rfl⟩ := List.mem_map.mp hx
        unfold ulCeLength
        split <;> [decide; (split <;> decide)]
      have hbound := List.sum_le_card_nsmul _ 3 hle
      unfold maxNumCe at hfive
      simp only [List.length_map, smul_eq_mul] at hbound
      omega
    rw [himplicit, hone, hces, implicitLength, hlen, hsum, stateAt_ptr]
    unfold uint16
    omega
  · have hsame : (advance mem tbLength (stateAt mem tbLength n)).lengths =
        (stateAt mem tbLength n).lengths := by
      simp only [advance, stateAt_ptr, if_neg hsdu]
      split <;> rfl
    rw [hsame, hsum]

theorem headerFits_iff {n : ℕ} :
    HeaderFits mem tbLength n ↔
      (∀ k < n, guardedStep mem tbLength (stateAt mem tbLength k) =
        .ok (true, stateAt mem tbLength (k + 1))) ∧
      guardedStep mem tbLength (stateAt mem tbLength n) =
        .ok (false, stateAt mem tbLength (n + 1)) ∧
      subheaderAt mem (n + 1) + ((headerCes mem (n + 1)).map ulCeLength).sum +
        (stateAt mem tbLength (n + 1)).lengths.sum ≤ tbLength := by
  have hmono : subheaderAt mem n ≤ subheaderAt mem (n + 1) := subheaderAt_mono (Nat.le_succ n)
  have hsplit := @fewElements_succ mem tbLength n
  rw [path_iff, turn_iff]
  constructor
  · intro ⟨hmore, hlast, hknown, hces, hsdus, hroom⟩
    obtain ⟨hfew, hentry⟩ := hsplit.mp ⟨hsdus, hces⟩
    have hend : subheaderAt mem (n + 1) ≤ tbLength := by omega
    exact ⟨⟨hmore, fun k hk ↦ hknown k (Nat.le_of_lt hk), hfew, hmono.trans hend⟩,
      ⟨⟨hend, hentry, hknown n (Nat.le_refl n)⟩, hlast.symm⟩,
      (lengths_fit hmore hlast ⟨hsdus, hces⟩).mpr hroom⟩
  · intro ⟨⟨hmore, hknown, hfew, _⟩, ⟨⟨_, hentry, hlcid⟩, hlast⟩, hroom⟩
    have hfew' := hsplit.mpr ⟨hfew, hentry⟩
    refine ⟨hmore, hlast.symm, fun k hk ↦ ?_, hfew'.2, hfew'.1,
      (lengths_fit hmore hlast.symm hfew').mp hroom⟩
    rcases Nat.lt_or_eq_of_le hk with hk | rfl
    · exact hknown k hk
    · exact hlcid

theorem headerRefused_iff {n : ℕ} :
    HeaderRefused mem tbLength n ↔
      (∀ k < n, guardedStep mem tbLength (stateAt mem tbLength k) =
        .ok (true, stateAt mem tbLength (k + 1))) ∧
      guardedStep mem tbLength (stateAt mem tbLength n) = .error .macphyExit := by
  have hces : (stateAt mem tbLength n).ces = headerCes mem n := (stateAt_found mem tbLength n).1
  have hentry : ¬ KnownUlLcid (lcidAt mem n) →
      (HasEntry mem (stateAt mem tbLength n) ↔ (headerCes mem n).length < maxNumCe) := by
    intro hunknown
    have hlow : ¬ lcidAt mem n < extendedPowerHeadroom := fun h ↦ hunknown (.inl h)
    have hpad : lcidAt mem n ≠ shortPaddingLcid := fun h ↦ hunknown (.inr (.inl h))
    rw [HasEntry, stateAt_ptr, ← lcidAt, hces]
    exact ⟨fun h ↦ h.2 (not_lt.mp hlow) hpad, fun h ↦ ⟨fun h' ↦ absurd h' hlow, fun _ _ ↦ h⟩⟩
  rw [path_iff, guardedStep_exit, stateAt_ptr, ← lcidAt]
  constructor
  · intro ⟨hmore, hknown, hunknown, hinside, hfew, hsdus⟩
    exact ⟨⟨hmore, hknown, ⟨hsdus, Nat.le_of_lt hfew⟩, Nat.le_of_lt hinside⟩, hinside,
      (hentry hunknown).mpr hfew, hunknown⟩
  · intro ⟨⟨hmore, hknown, hfew, _⟩, hinside, hroom, hunknown⟩
    exact ⟨hmore, hknown, hunknown, hinside, (hentry hunknown).mp hroom, hfew.1⟩

end Turns

/-- The parser is safe on exactly the blocks that begin with a header they have room
for, or in which an unknown control element stops it early enough. -/
theorem ulsch_header_safe_iff (mem : ℕ → ℕ) (tbLength : ℕ) :
    UlschHeaderSafe mem tbLength ↔
      ∃ n, HeaderFits mem tbLength n ∨ HeaderRefused mem tbLength n := by
  constructor
  · intro hsafe
    have hg : ∀ k more s, guardedStep mem tbLength (stateAt mem tbLength k) = .ok (more, s) →
        s = stateAt mem tbLength (k + 1) := fun k more s h ↦ (guardedStep_ok.mp h).2.2
    rcases loop_ends hg tbLength with hall | ⟨n, hn, hfront, ⟨e, herror⟩ | hok⟩
    · have hstuck : guardedUlschHeader mem tbLength = .error .overrun := by
        have h : guardedUlschHeader mem tbLength = _ :=
          loop_trajectory (g := stateAt mem tbLength) hall (Nat.le_refl tbLength)
        rwa [Nat.sub_self] at h
      simp [UlschHeaderSafe, hstuck] at hsafe
    · have hresult : guardedUlschHeader mem tbLength = .error e :=
        loop_fails (g := stateAt mem tbLength) hfront hn herror
      have hexit : e = .macphyExit := by
        rcases hsafe with h | ⟨s, h, -⟩
        · exact Except.error.inj (hresult.symm.trans h)
        · simp [hresult] at h
      subst hexit
      exact ⟨n, .inr (headerRefused_iff.mpr ⟨hfront, herror⟩)⟩
    · have hresult : guardedUlschHeader mem tbLength = .ok (stateAt mem tbLength (n + 1)) :=
        loop_stops (g := stateAt mem tbLength) hfront hn hok
      rcases hsafe with h | ⟨s, h, -, -, -, -, hroom⟩
      · simp [hresult] at h
      · have hs : stateAt mem tbLength (n + 1) = s := Except.ok.inj (hresult.symm.trans h)
        rw [← hs, stateAt_ptr, (stateAt_found mem tbLength (n + 1)).1] at hroom
        exact ⟨n, .inl (headerFits_iff.mpr ⟨hfront, hok, hroom⟩)⟩
  · intro ⟨n, h⟩
    have hn := @le_subheaderAt mem n
    rcases h with h | h
    · obtain ⟨hfront, hok, hroom⟩ := headerFits_iff.mp h
      obtain ⟨hces, hlcids, hlengths, -⟩ := stateAt_found mem tbLength (n + 1)
      have hpos := @le_subheaderAt mem (n + 1)
      have hptr := stateAt_ptr mem tbLength (n + 1)
      have hlt : n < tbLength := by omega
      refine .inr ⟨_, loop_stops (g := stateAt mem tbLength) hfront hlt hok, by omega, ?_, ?_, ?_, ?_⟩
      · rw [hces]
        exact h.fewCes
      · rw [hlcids]
        exact h.fewSdus
      · rw [hlengths]
        exact h.fewSdus
      · rw [hptr, hces]
        exact hroom
    · obtain ⟨hfront, hexit⟩ := headerRefused_iff.mp h
      exact .inl (loop_fails (g := stateAt mem tbLength) hfront (hn.trans_lt h.inside) hexit)

/-- A block of three octets that announces an SDU of 100. -/
theorem not_ulsch_header_safe :
    ¬ UlschHeaderSafe (fun i ↦ [0x23, 100, 0x1f].getD i 0) 3 := by
  have hresult : guardedUlschHeader (fun i ↦ [0x23, 100, 0x1f].getD i 0) 3 =
      .ok ⟨3, [], [3], [100], 0, 1⟩ := by rfl
  rw [UlschHeaderSafe, hresult]
  simp

end EdgeSlice.Mac
