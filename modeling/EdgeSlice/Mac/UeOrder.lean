import EdgeSlice.Mac.UeChains
import EdgeSlice.Mac.ScheduleUlsch
import Mathlib.Data.List.Lex

namespace EdgeSlice.Mac

/-- A cascade of comparisons, larger keys first. -/
def cascade {α : Type*} [LinearOrder α] : List α → List α → ℤ
  | a :: as, b :: bs => if b < a then -1 else if a < b then 1 else cascade as bs
  | _, _ => 0

section Cascade

variable {α : Type*} [LinearOrder α]

theorem cascade_swap (as bs : List α) : cascade as bs = -cascade bs as := by
  induction as generalizing bs with
  | nil => cases bs <;> rfl
  | cons a as ih =>
    cases bs with
    | nil => rfl
    | cons b bs =>
      rw [cascade, cascade]
      rcases lt_trichotomy a b with hlt | rfl | hlt
      · rw [if_neg hlt.asymm, if_pos hlt, if_pos hlt]
        rfl
      · rw [if_neg (lt_irrefl a), if_neg (lt_irrefl a), if_neg (lt_irrefl a), if_neg (lt_irrefl a)]
        exact ih bs
      · rw [if_pos hlt, if_neg hlt.asymm, if_pos hlt]

/-- Keys of one length are compared in their lexicographic order. -/
theorem cascade_nonpos_iff {as bs : List α} (h : as.length = bs.length) :
    cascade as bs ≤ 0 ↔ bs ≤ as := by
  induction as generalizing bs with
  | nil =>
    obtain rfl := List.length_eq_zero_iff.mp h.symm
    simp [cascade]
  | cons a as ih =>
    cases bs with
    | nil => cases h
    | cons b bs =>
      have hrest : cascade as bs ≤ 0 ↔ ¬as < bs := (ih (Nat.succ.inj h)).trans not_lt.symm
      have hle : b :: bs ≤ a :: as ↔ ¬a :: as < b :: bs := not_lt.symm
      rw [hle, cascade, List.cons_lt_cons_iff]
      rcases lt_trichotomy a b with hlt | rfl | hlt
      · rw [if_neg hlt.asymm, if_pos hlt]
        exact iff_of_false (by omega) (not_not_intro (.inl hlt))
      · rw [if_neg (lt_irrefl a), if_neg (lt_irrefl a), hrest]
        simp
      · have hno : ¬(a < b ∨ a = b ∧ as < bs) :=
          not_or.mpr ⟨hlt.asymm, fun h ↦ hlt.ne' h.1⟩
        rw [if_pos hlt]
        exact iff_of_true (by omega) hno

end Cascade

/-- A comparison function as `qsort_r` needs it, on the elements of a list. -/
structure TotalPreorder (compare : ℕ → ℕ → ℤ) (xs : List ℕ) : Prop where
  flip : ∀ a ∈ xs, ∀ b ∈ xs, compare a b ≤ 0 ↔ 0 ≤ compare b a
  trans : ∀ a ∈ xs, ∀ b ∈ xs, ∀ c ∈ xs, compare a b ≤ 0 → compare b c ≤ 0 → compare a c ≤ 0

/-- What is known of `qsort_r`. -/
def Sorts (qsortR : (ℕ → ℕ → ℤ) → List ℕ → List ℕ) : Prop :=
  ∀ compare xs, TotalPreorder compare xs →
    (qsortR compare xs).Perm xs ∧ (qsortR compare xs).Pairwise (fun a b ↦ compare a b ≤ 0)

theorem totalPreorder_cascade {α : Type*} [LinearOrder α] (keys : ℕ → List α) {n : ℕ}
    (hlength : ∀ a, (keys a).length = n) (xs : List ℕ) :
    TotalPreorder (fun a b ↦ cascade (keys a) (keys b)) xs := by
  constructor
  · intro a _ b _
    simp only [cascade_swap (keys a) (keys b)]
    omega
  · intro a _ b _ c _ hab hbc
    rw [cascade_nonpos_iff ((hlength _).trans (hlength _).symm)] at hab hbc ⊢
    exact hbc.trans hab

/-- `UE_list_t` as the sorts read it, in any state. -/
structure SortState where
  numberOfUeMax : ℕ
  active : ℕ → Bool
  pCcId : ℕ → ℕ
  orderedCcIds : ℕ → List ℕ
  rnti : ℕ → ℕ → ℕ
  ueTemplate : ℕ → ℕ → UeTemplate
  ueSchedCtrl : ℕ → UeUlSchedCtrl
  chains : UeChains

namespace SortState

variable (phy : EnbPhy) (st : SortState)

def ueRnti (ue : ℕ) : ℕ := st.rnti (st.pCcId ue) ue

def findUeId (rnti : ℕ) : Option ℕ :=
  (List.range st.numberOfUeMax).find? (fun ue ↦ st.active ue && st.ueRnti ue == rnti)

def phyStatsExist (rnti : ℕ) : Bool :=
  match st.findUeId rnti with
  | none => false
  | some ue =>
    if (st.orderedCcIds ue).length = 0 then false
    else (st.orderedCcIds ue).all (fun cc ↦ (phy.ueStats cc rnti).isSome)

/-- The UEs that the loop before the sort takes. -/
def eligible (ue : ℕ) : Bool :=
  st.ueRnti ue != 0 && (st.ueSchedCtrl ue).ulOutOfSync != 1 && st.phyStatsExist phy (st.ueRnti ue)

def eligibleUes : List ℕ := (List.range st.numberOfUeMax).filter (st.eligible phy)

def maxround (rnti : ℕ) : ℕ :=
  match st.findUeId rnti with
  | none => 0
  | some ue => roundMax phy.maxNumCcs (st.ueSchedCtrl ue)

/-- -1 where the statistics of a carrier are missing. -/
def maxcqi (ue : ℕ) : ℤ :=
  ((st.orderedCcIds ue).foldlM (fun cqi cc ↦
    (phy.ueStats cc (st.ueRnti ue)).map (fun stats ↦ max cqi stats.dlCqi.val)) 0).elim (-1)
      Nat.cast

def primary (ue : ℕ) : UeTemplate := st.ueTemplate (st.pCcId ue) ue

/-- The sort keys of a UE in the downlink: HARQ round, backlog of SRB1 and SRB2 as a 32-bit
sum, time of the oldest SDU, backlog, CQI. -/
def dlKeys (ue : ℕ) : List ℤ :=
  let t := st.primary ue
  [st.maxround phy (st.ueRnti ue), ((t.dlBufferInfo 1 + t.dlBufferInfo 2) % 2 ^ 32 : ℕ),
    t.dlBufferHeadSduCreationTimeMax, t.dlBufferTotal, st.maxcqi phy ue]

def ulKeys (ue : ℕ) : List ℕ := Mac.ulKeys (st.maxround phy (st.ueRnti ue)) (st.primary ue)

def ueDlCompare (ue ue' : ℕ) : ℤ := cascade (st.dlKeys phy ue) (st.dlKeys phy ue')

def ueUlCompare (ue ue' : ℕ) : ℤ := cascade (st.ulKeys phy ue) (st.ulKeys phy ue')

variable (qsortR : (ℕ → ℕ → ℤ) → List ℕ → List ℕ)

def sortUes : SortState :=
  { st with
    chains := { st.chains with
      dl := .relink st.chains.dl.next (qsortR (st.ueDlCompare phy) (st.eligibleUes phy)) } }

def sortUeUl : SortState :=
  { st with
    chains := { st.chains with
      ul := .relink st.chains.ul.next (qsortR (st.ueUlCompare phy) (st.eligibleUes phy)) } }

/-- A chain of all the UEs that can be scheduled, in the order of a comparison that is fit
for `qsort_r`. -/
def Ordered (compare : ℕ → ℕ → ℤ) (L : SuccessorList) : Prop :=
  ∃ ues, L.Lists ues ∧ ues.Nodup ∧
    (∀ ue, ue ∈ ues ↔ ue < st.numberOfUeMax ∧ st.ueRnti ue ≠ 0 ∧
      (st.ueSchedCtrl ue).ulOutOfSync ≠ 1 ∧ st.phyStatsExist phy (st.ueRnti ue) = true) ∧
    ues.IsChain (fun ue ue' ↦ compare ue ue' ≤ 0) ∧ TotalPreorder compare ues

variable {phy st qsortR}

theorem mem_eligibleUes {ue : ℕ} :
    ue ∈ st.eligibleUes phy ↔ ue < st.numberOfUeMax ∧ st.ueRnti ue ≠ 0 ∧
      (st.ueSchedCtrl ue).ulOutOfSync ≠ 1 ∧ st.phyStatsExist phy (st.ueRnti ue) = true := by
  simp only [eligibleUes, eligible, List.mem_filter, List.mem_range, Bool.and_eq_true,
    bne_iff_ne, and_assoc]

theorem eligibleUes_nodup : (st.eligibleUes phy).Nodup := List.nodup_range.filter _

theorem relink_ordered (hsorts : Sorts qsortR) {compare : ℕ → ℕ → ℤ}
    (hcompare : ∀ xs, TotalPreorder compare xs) (next : ℕ → ℤ) :
    st.Ordered phy compare (.relink next (qsortR compare (st.eligibleUes phy))) := by
  obtain ⟨hperm, hpairwise⟩ := hsorts compare _ (hcompare (st.eligibleUes phy))
  have hnodup : (qsortR compare (st.eligibleUes phy)).Nodup :=
    hperm.nodup_iff.mpr eligibleUes_nodup
  refine ⟨_, SuccessorList.relink_lists hnodup, hnodup, fun ue ↦ ?_, hpairwise.isChain, hcompare _⟩
  rw [hperm.mem_iff, mem_eligibleUes]

theorem ueDlCompare_totalPreorder (xs : List ℕ) : TotalPreorder (st.ueDlCompare phy) xs :=
  totalPreorder_cascade (n := 5) (st.dlKeys phy) (fun _ ↦ rfl) xs

theorem ueUlCompare_totalPreorder (xs : List ℕ) : TotalPreorder (st.ueUlCompare phy) xs :=
  totalPreorder_cascade (n := 4) (st.ulKeys phy) (fun _ ↦ rfl) xs

/-- The comparisons are the lexicographic orders of the keys, larger keys first. -/
theorem ueDlCompare_nonpos_iff {ue ue' : ℕ} :
    st.ueDlCompare phy ue ue' ≤ 0 ↔ st.dlKeys phy ue' ≤ st.dlKeys phy ue := cascade_nonpos_iff rfl

theorem ueUlCompare_nonpos_iff {ue ue' : ℕ} :
    st.ueUlCompare phy ue ue' ≤ 0 ↔ st.ulKeys phy ue' ≤ st.ulKeys phy ue := cascade_nonpos_iff rfl

variable (phy st) in
/-- `sort_UEs` and `sort_ue_ul` leave the UEs that can be scheduled in the order of their
priorities, whatever the links were before. -/
theorem sorts_ordered (hsorts : Sorts qsortR) :
    st.Ordered phy (st.ueDlCompare phy) (st.sortUes phy qsortR).chains.dl ∧
      st.Ordered phy (st.ueUlCompare phy) (st.sortUeUl phy qsortR).chains.ul :=
  ⟨relink_ordered hsorts ueDlCompare_totalPreorder _,
    relink_ordered hsorts ueUlCompare_totalPreorder _⟩

end SortState

/-- An insertion sort with a comparison function. -/
def insertionSortR (compare : ℕ → ℕ → ℤ) (xs : List ℕ) : List ℕ :=
  xs.insertionSort (fun a b ↦ compare a b ≤ 0)

theorem insertionSortR_sorts : Sorts insertionSortR := by
  intro compare xs h
  refine ⟨List.perm_insertionSort _ _, ?_⟩
  -- the comparison is total and transitive on the members of the list only
  let r (a b : { x // x ∈ xs }) : Prop := compare a b ≤ 0
  have htotal : Std.Total r := by
    constructor
    intro a b
    by_cases hab : compare a b ≤ 0
    · exact .inl hab
    · exact .inr ((h.flip b b.2 a a.2).mpr (not_le.mp hab).le)
  have htrans : IsTrans _ r := ⟨fun a b c ↦ h.trans a a.2 b b.2 c c.2⟩
  have hmap : (xs.attach.insertionSort r).map Subtype.val = insertionSortR compare xs := by
    rw [List.map_insertionSort r (fun a b ↦ compare a b ≤ 0) Subtype.val xs.attach
      fun _ _ _ _ ↦ Iff.rfl, List.attach_map_subtype_val]
    rfl
  rw [← hmap, List.pairwise_map]
  exact List.pairwise_insertionSort r xs.attach

section Directory

/-- The state of a well-formed directory, with any links. -/
def UeList.sortState (l : UeList) (chains : UeChains) : SortState where
  numberOfUeMax := l.numberOfUeMax
  active := l.active
  pCcId := l.pCcId
  orderedCcIds := l.orderedCcIds
  rnti := l.rnti
  ueTemplate := l.ueTemplate
  ueSchedCtrl := l.ueSchedCtrl
  chains := chains

theorem compareKeys_eq_cascade (as bs : List ℕ) : compareKeys as bs = cascade as bs := by
  induction as generalizing bs with
  | nil => rfl
  | cons a as ih =>
    cases bs with
    | nil => rfl
    | cons b bs => rw [compareKeys, cascade, ih]

/-- The uplink chain is the list that the uplink scheduler goes through. -/
theorem sortUeUl_lists (phy : EnbPhy) (l : UeList) (chains : UeChains) :
    ((l.sortState chains).sortUeUl phy insertionSortR).chains.ul.Lists (sortUeUl phy l) := by
  have hsame : sortUeUl phy l = insertionSortR ((l.sortState chains).ueUlCompare phy)
      ((l.sortState chains).eligibleUes phy) := by
    have hcompare : ueUlCompare phy l = (l.sortState chains).ueUlCompare phy :=
      funext₂ fun _ _ ↦ compareKeys_eq_cascade _ _
    rw [sortUeUl, hcompare]
    rfl
  rw [hsame]
  apply SuccessorList.relink_lists
  exact (List.perm_insertionSort _ _).nodup_iff.mpr SortState.eligibleUes_nodup

theorem sorts_ordered_requesting :
    let st := requestingUes.sortState fourUes
    st.Ordered phy5MHz (st.ueDlCompare phy5MHz) (st.sortUes phy5MHz insertionSortR).chains.dl ∧
      st.Ordered phy5MHz (st.ueUlCompare phy5MHz)
        (st.sortUeUl phy5MHz insertionSortR).chains.ul :=
  SortState.sorts_ordered phy5MHz (requestingUes.sortState fourUes) insertionSortR_sorts

end Directory

end EdgeSlice.Mac
