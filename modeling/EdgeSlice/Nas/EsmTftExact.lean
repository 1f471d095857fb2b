import EdgeSlice.Nas.EsmData

/-! When the check of a new traffic flow template is exact. -/

namespace EdgeSlice.Nas

variable {field : NetworkPkf → UInt8} {tft1 tft2 : NetworkTft} {tft : Option NetworkTft} {ebi : ℕ} {pdn : EsmPdn}

/-- The two templates have filters at one position that agree in a field. -/
def SamePlace (field : NetworkPkf → UInt8) (tft1 tft2 : NetworkTft) : Prop :=
  ∃ (i : ℕ) (pkf1 pkf2 : NetworkPkf), tft1.pkf[i]? = some pkf1 ∧ tft2.pkf[i]? = some pkf2 ∧ field pkf1 = field pkf2

/-- The second template has a filter at every position of the first, or none at all. -/
def Comparable (tft1 tft2 : NetworkTft) : Prop := tft2.nPkfs = 0 ∨ tft1.nPkfs ≤ tft2.nPkfs

theorem inner_of_pos (h : tft2.nPkfs ≠ 0) (i : ℕ) :
    Turn.run (fun _ : ℕ ↦ comparePkf field tft1 tft2 i) (List.range tft2.nPkfs) = comparePkf field tft1 tft2 i := by
  by_cases hnext : comparePkf field tft1 tft2 i = .next
  · rw [hnext, Turn.run_eq_next_iff]
    exact fun _ _ ↦ rfl
  · rw [Turn.run_range_eq_iff hnext]
    exact ⟨0, Nat.pos_of_ne_zero h, fun j hj ↦ absurd hj (Nat.not_lt_zero j), rfl⟩

theorem comparePkf_eq_next_iff {i : ℕ} : comparePkf field tft1 tft2 i = .next ↔
    ∃ pkf1 pkf2, tft1.pkf[i]? = some pkf1 ∧ tft2.pkf[i]? = some pkf2 ∧ field pkf1 ≠ field pkf2 := by
  unfold comparePkf
  cases tft1.pkf[i]? <;> cases tft2.pkf[i]? <;> simp

theorem comparePkf_eq_exit_iff {i : ℕ} : comparePkf field tft1 tft2 i = .exit () ↔
    ∃ pkf1 pkf2, tft1.pkf[i]? = some pkf1 ∧ tft2.pkf[i]? = some pkf2 ∧ field pkf1 = field pkf2 := by
  unfold comparePkf
  cases tft1.pkf[i]? <;> cases tft2.pkf[i]? <;> simp

theorem comparePkfs_of_empty (h : tft2.nPkfs = 0) : comparePkfs field tft1 tft2 = .next := by
  rw [comparePkfs, Turn.run_eq_next_iff, h]
  intro i _
  rfl

theorem comparePkfs_of_pos (h : tft2.nPkfs ≠ 0) :
    comparePkfs field tft1 tft2 = Turn.run (comparePkf field tft1 tft2) (List.range tft1.nPkfs) := by
  simp only [comparePkfs, inner_of_pos h]

theorem comparePkfs_eq_next_iff :
    comparePkfs field tft1 tft2 = .next ↔ Comparable tft1 tft2 ∧ ¬ SamePlace field tft1 tft2 := by
  by_cases h : tft2.nPkfs = 0
  · have hnone : ¬ SamePlace field tft1 tft2 := by
      rintro ⟨i, pkf1, pkf2, -, hpkf2, -⟩
      rw [List.eq_nil_of_length_eq_zero h] at hpkf2
      simp at hpkf2
    exact iff_of_true (comparePkfs_of_empty h) ⟨Or.inl h, hnone⟩
  · rw [comparePkfs_of_pos h, Turn.run_eq_next_iff]
    constructor
    · intro hall
      constructor
      · right
        by_contra hshort
        obtain ⟨-, pkf2, -, hpkf2, -⟩ := comparePkf_eq_next_iff.1 (hall tft2.nPkfs (List.mem_range.2 (by omega)))
        have hnone : tft2.pkf[tft2.nPkfs]? = none := List.getElem?_eq_none (Nat.le_refl _)
        simp [hnone] at hpkf2
      · rintro ⟨i, pkf1, pkf2, hpkf1, hpkf2, hsame⟩
        obtain ⟨hi, -⟩ := List.getElem?_eq_some_iff.1 hpkf1
        obtain ⟨pkf1', pkf2', hpkf1', hpkf2', hne⟩ := comparePkf_eq_next_iff.1 (hall i (List.mem_range.2 hi))
        obtain rfl := Option.some_inj.1 (hpkf1.symm.trans hpkf1')
        obtain rfl := Option.some_inj.1 (hpkf2.symm.trans hpkf2')
        exact hne hsame
    · rintro ⟨hcomparable, hplace⟩ i hi
      have hlt : i < tft1.nPkfs := List.mem_range.1 hi
      have hlt2 : i < tft2.nPkfs := hlt.trans_le (hcomparable.resolve_left h)
      rw [comparePkf_eq_next_iff]
      refine ⟨tft1.pkf[i], tft2.pkf[i], List.getElem?_eq_getElem hlt, List.getElem?_eq_getElem hlt2, ?_⟩
      intro hsame
      exact hplace ⟨i, _, _, List.getElem?_eq_getElem hlt, List.getElem?_eq_getElem hlt2, hsame⟩

theorem comparePkfs_eq_exit_iff : comparePkfs field tft1 tft2 = .exit () ↔ SamePlace field tft1 tft2 := by
  by_cases h : tft2.nPkfs = 0
  · have hnone : ¬ SamePlace field tft1 tft2 := (comparePkfs_eq_next_iff.1 (comparePkfs_of_empty h)).2
    rw [comparePkfs_of_empty h]
    exact iff_of_false (by simp) hnone
  · rw [comparePkfs_of_pos h, Turn.run_range_eq_iff (by simp)]
    constructor
    · rintro ⟨i, -, -, hi⟩
      exact ⟨i, comparePkf_eq_exit_iff.1 hi⟩
    · rintro ⟨i, hi⟩
      have hexit := comparePkf_eq_exit_iff.2 hi
      obtain ⟨pkf1, pkf2, hpkf1, hpkf2, -⟩ := hi
      have hlt1 := (List.getElem?_eq_some_iff.1 hpkf1).1
      have hlt2 := (List.getElem?_eq_some_iff.1 hpkf2).1
      -- the first position that does not go on is not behind `i`, so both filters exist there
      rw [← Turn.run_range_eq_iff (by simp)]
      have hne : Turn.run (comparePkf field tft1 tft2) (List.range tft1.nPkfs) ≠ .next := by
        intro hnext
        have := Turn.run_eq_next_iff.1 hnext i (List.mem_range.2 hlt1)
        simp [hexit] at this
      obtain ⟨j, hj, hbefore, hbody⟩ := (Turn.run_range_eq_iff hne).1 rfl
      have hji : j ≤ i := by
        by_contra hlt
        have := hbefore i (by omega)
        simp [hexit] at this
      have hboth : comparePkf field tft1 tft2 j ≠ .fault := by
        have h1 : tft1.pkf[j]? = some tft1.pkf[j] := List.getElem?_eq_getElem (by omega)
        have h2 : tft2.pkf[j]? = some tft2.pkf[j] := List.getElem?_eq_getElem (by omega)
        simp only [comparePkf, h1, h2]
        split <;> simp
      rw [← hbody] at hne ⊢
      cases hcase : comparePkf field tft1 tft2 j with
      | next => exact absurd hcase hne
      | exit r => rfl
      | fault => exact absurd hcase hboth

/-- The filters of a template; a null template has none. -/
def filters (tft : Option NetworkTft) : NetworkTft := tft.getD ⟨[]⟩

variable (field tft tft2) in
theorem checkField_eq_ok_iff : checkField field tft (some tft2) = some .ok ↔
    Comparable (filters tft) tft2 ∧ ¬ SamePlace field (filters tft) tft2 := by
  cases tft with
  | none =>
    have hnone : ¬ SamePlace field ⟨[]⟩ tft2 := by
      rintro ⟨i, pkf1, pkf2, hpkf1, -, -⟩
      simp at hpkf1
    exact iff_of_true rfl ⟨Or.inr (Nat.zero_le _), hnone⟩
  | some tft1 =>
    rw [filters, Option.getD_some, ← comparePkfs_eq_next_iff, checkField]
    cases comparePkfs field tft1 tft2 <;> simp

variable (field tft tft2) in
theorem checkField_eq_error_iff :
    checkField field tft (some tft2) = some .error ↔ SamePlace field (filters tft) tft2 := by
  cases tft with
  | none =>
    have hnone : ¬ SamePlace field ⟨[]⟩ tft2 := by
      rintro ⟨i, pkf1, pkf2, hpkf1, -, -⟩
      simp at hpkf1
    exact iff_of_false (by simp [checkField]) hnone
  | some tft1 =>
    rw [filters, Option.getD_some, ← comparePkfs_eq_exit_iff, checkField]
    cases comparePkfs field tft1 tft2 <;> simp

/-- The check of this bearer ends with an error. -/
def Stops (tft : NetworkTft) (ebi : ℕ) (bearer : EsmBearer) : Prop :=
  (bearer.ebi = ebi ∧ SamePlace NetworkPkf.id tft bearer.tft) ∨
    (SamePlace NetworkPkf.precedence tft bearer.tft ∧ (bearer.ebi = ebi → Comparable tft bearer.tft))

variable {bearer : EsmBearer}

theorem checkBearer_eq_ok_iff : checkBearer tft ebi bearer = some .ok ↔
    Comparable (filters tft) bearer.tft ∧ ¬ Stops (filters tft) ebi bearer := by
  have hid := checkField_eq_ok_iff NetworkPkf.id bearer.tft tft
  have hprec := checkField_eq_ok_iff NetworkPkf.precedence bearer.tft tft
  unfold checkBearer Stops
  by_cases hebi : bearer.ebi = ebi
  · rw [if_pos hebi]
    simp only [hebi, true_and, forall_const]
    cases hcheck : esmEbrContextCheckIdentifiers tft (some bearer.tft) with
    | none =>
      have hnot : ¬ (esmEbrContextCheckIdentifiers tft (some bearer.tft) = some .ok) := by simp [hcheck]
      have hfails := mt hid.2 hnot
      simp only [Option.bind_none, reduceCtorEq, false_iff]
      exact fun h ↦ hfails ⟨h.1, fun hsame ↦ h.2 (.inl hsame)⟩
    | some rc =>
      cases rc with
      | ok =>
        have hpasses := hid.1 hcheck
        simp only [Option.bind_some, ne_eq, not_true_eq_false, if_false]
        rw [esmEbrContextCheckPrecedence, hprec]
        constructor
        · intro h
          exact ⟨h.1, fun hstops ↦ hstops.elim hpasses.2 fun hboth ↦ h.2 hboth.1⟩
        · intro h
          exact ⟨h.1, fun hsame ↦ h.2 (.inr ⟨hsame, h.1⟩)⟩
      | error =>
        have hsame := (checkField_eq_error_iff _ _ _).1 hcheck
        simp only [Option.bind_some, ne_eq, reduceCtorEq, not_false_eq_true, if_true,
          Option.some.injEq, false_iff]
        exact fun h ↦ h.2 (.inl hsame)
  · rw [if_neg hebi, esmEbrContextCheckPrecedence, hprec]
    simp only [hebi, false_and, false_or, IsEmpty.forall_iff, and_true]

theorem checkBearer_eq_error_iff : checkBearer tft ebi bearer = some .error ↔ Stops (filters tft) ebi bearer := by
  have hid := checkField_eq_error_iff NetworkPkf.id bearer.tft tft
  have hprec := checkField_eq_error_iff NetworkPkf.precedence bearer.tft tft
  unfold checkBearer Stops
  by_cases hebi : bearer.ebi = ebi
  · rw [if_pos hebi]
    cases hcheck : esmEbrContextCheckIdentifiers tft (some bearer.tft) with
    | none =>
      have herror : ¬ SamePlace NetworkPkf.id (filters tft) bearer.tft := by
        rw [← hid]
        exact fun h ↦ by simp [esmEbrContextCheckIdentifiers, h] at hcheck
      have hok : ¬ Comparable (filters tft) bearer.tft := by
        intro hcomparable
        have := (checkField_eq_ok_iff _ _ _).2 ⟨hcomparable, herror⟩
        simp [esmEbrContextCheckIdentifiers, this] at hcheck
      simp only [Option.bind_none, reduceCtorEq, false_iff]
      tauto
    | some rc =>
      cases rc with
      | ok =>
        have := (checkField_eq_ok_iff _ _ _).1 hcheck
        simp only [Option.bind_some, ne_eq, not_true_eq_false, if_false, esmEbrContextCheckPrecedence, hprec]
        simp [this.1, this.2]
      | error =>
        have := hid.1 hcheck
        simp
        tauto
  · rw [if_neg hebi, esmEbrContextCheckPrecedence, hprec]
    tauto

/-- The bearers that the loop reaches. -/
def EsmPdn.visited (pdn : EsmPdn) : List EsmBearer := (List.range pdn.nBearers.toNat).filterMap pdn.bearer

def EsmPdn.bearers (pdn : EsmPdn) : List EsmBearer := (List.range ESM_DATA_EPS_BEARER_MAX).filterMap pdn.bearer

/-- One bearer as a turn of a loop. -/
def bearerTurn (tft : Option NetworkTft) (ebi : ℕ) (bearer : EsmBearer) : Turn Unit :=
  match checkBearer tft ebi bearer with
  | some .ok => .next
  | some .error => .exit ()
  | none => .fault

theorem bearerTurn_eq_next_iff : bearerTurn tft ebi bearer = .next ↔ checkBearer tft ebi bearer = some .ok := by
  unfold bearerTurn
  cases checkBearer tft ebi bearer with
  | none => simp
  | some rc => cases rc <;> simp

theorem bearerTurn_eq_exit_iff : bearerTurn tft ebi bearer = .exit () ↔ checkBearer tft ebi bearer = some .error := by
  unfold bearerTurn
  cases checkBearer tft ebi bearer with
  | none => simp
  | some rc => cases rc <;> simp

/-- The loop over the entries is one over the bearers. -/
theorem checkBearers_eq_run {is : List ℕ} (his : ∀ i ∈ is, i < ESM_DATA_EPS_BEARER_MAX) (rc : Rc) :
    checkBearers tft ebi pdn rc is =
      match Turn.run (bearerTurn tft ebi) (is.filterMap pdn.bearer) with
      | .next => some (if is.filterMap pdn.bearer = [] then rc else .ok)
      | .exit _ => some .error
      | .fault => none := by
  induction is generalizing rc with
  | nil => rfl
  | cons i is ih =>
    obtain ⟨hi, his⟩ := List.forall_mem_cons.1 his
    rw [checkBearers, EsmPdn.entry, if_pos hi, Option.bind_some]
    cases hbearer : pdn.bearer i with
    | none => simp only [ih his rc, List.filterMap_cons_none hbearer]
    | some bearer =>
      simp only [List.filterMap_cons_some hbearer]
      cases hcheck : checkBearer tft ebi bearer with
      | none => simp [Turn.run, bearerTurn, hcheck]
      | some rc' =>
        cases rc' with
        | ok =>
          simp only [Option.bind_some, ne_eq, not_true_eq_false, if_false, ih his, Turn.run, bearerTurn, hcheck]
          simp
        | error => simp [Turn.run, bearerTurn, hcheck]

/-- A filter of the new template has the identifier of a filter of the bearer with its identity, or the
precedence of a filter of the bearer. -/
def Conflicts (tft : NetworkTft) (ebi : ℕ) (bearer : EsmBearer) : Prop :=
  (bearer.ebi = ebi ∧ ∃ pkf1 ∈ tft.pkf, ∃ pkf2 ∈ bearer.tft.pkf, pkf1.id = pkf2.id) ∨
    ∃ pkf1 ∈ tft.pkf, ∃ pkf2 ∈ bearer.tft.pkf, pkf1.precedence = pkf2.precedence

theorem SamePlace.mem (h : SamePlace field tft1 tft2) : ∃ pkf1 ∈ tft1.pkf, ∃ pkf2 ∈ tft2.pkf, field pkf1 = field pkf2 := by
  obtain ⟨i, pkf1, pkf2, hpkf1, hpkf2, hsame⟩ := h
  exact ⟨pkf1, List.mem_of_getElem? hpkf1, pkf2, List.mem_of_getElem? hpkf2, hsame⟩

theorem Stops.conflicts {tft : NetworkTft} (h : Stops tft ebi bearer) : Conflicts tft ebi bearer := by
  cases h with
  | inl h => exact Or.inl ⟨h.1, h.2.mem⟩
  | inr h => exact Or.inr h.1.mem

/-- The check reads allocated filters only, and says whether some filter conflicts. -/
def CheckExact (esmData : EsmData) (pid ebi : ℕ) (tft : Option NetworkTft) (pdn : EsmPdn) : Prop :=
  ∃ rc, esmEbrContextCheckTft esmData pid ebi tft .create = some rc ∧
    (rc = .ok ↔ ∀ bearer ∈ pdn.bearers, ¬ Conflicts (filters tft) ebi bearer)

/-- Without a conflict the loop reaches a bearer, and no bearer with too few filters. With a conflict it
reaches none, or one that stops it before a bearer with too few filters. -/
structure Decides (tft : NetworkTft) (ebi : ℕ) (pdn : EsmPdn) : Prop where
  accepted : (∀ bearer ∈ pdn.bearers, ¬ Conflicts tft ebi bearer) →
    pdn.visited ≠ [] ∧ ∀ bearer ∈ pdn.visited, Comparable tft bearer.tft
  refused : (∃ bearer ∈ pdn.bearers, Conflicts tft ebi bearer) →
    pdn.visited = [] ∨ ∃ front bearer rest, pdn.visited = front ++ bearer :: rest ∧
      (∀ b ∈ front, Comparable tft b.tft) ∧ Stops tft ebi bearer

theorem mem_bearers_of_mem_visited (hn : pdn.nBearers ≤ 4) (h : bearer ∈ pdn.visited) : bearer ∈ pdn.bearers := by
  obtain ⟨i, hi, hbearer⟩ := List.mem_filterMap.1 h
  have hlt : i < pdn.nBearers.toNat := List.mem_range.1 hi
  have hmax : i < 4 := by omega
  exact List.mem_filterMap.2 ⟨i, List.mem_range.2 hmax, hbearer⟩

/-- A bearer that stops the loop is reached, or one before it stops the loop. -/
theorem run_exit_of_stops {front rest : List EsmBearer} (hfront : ∀ b ∈ front, Comparable (filters tft) b.tft)
    (hstops : Stops (filters tft) ebi bearer) :
    Turn.run (bearerTurn tft ebi) (front ++ bearer :: rest) = .exit () := by
  induction front with
  | nil => exact Turn.run_cons_of_exit (bearerTurn_eq_exit_iff.2 (checkBearer_eq_error_iff.2 hstops))
  | cons b front ih =>
    obtain ⟨hb, hfront⟩ := List.forall_mem_cons.1 hfront
    by_cases hstop : Stops (filters tft) ebi b
    · exact Turn.run_cons_of_exit (bearerTurn_eq_exit_iff.2 (checkBearer_eq_error_iff.2 hstop))
    · have hnext := bearerTurn_eq_next_iff.2 (checkBearer_eq_ok_iff.2 ⟨hb, hstop⟩)
      rw [List.cons_append, Turn.run_cons_of_next hnext, ih hfront]

variable {esmData : EsmData} {pid : ℕ}

theorem esmEbrContextCheckTft_exact_iff (hpid : pid < ESM_DATA_PDN_MAX) (hown : (esmData.pdn pid).pid = pid)
    (hdata : (esmData.pdn pid).data = some pdn) (hn : pdn.nBearers ≤ 4) :
    CheckExact esmData pid ebi tft pdn ↔ Decides (filters tft) ebi pdn := by
  have hin : ∀ i ∈ List.range pdn.nBearers.toNat, i < ESM_DATA_EPS_BEARER_MAX := by
    intro i hi
    have hlt := List.mem_range.1 hi
    have hmax : i < 4 := by omega
    exact hmax
  have hrun : esmEbrContextCheckTft esmData pid ebi tft .create =
      match Turn.run (bearerTurn tft ebi) pdn.visited with
      | .next => some (if pdn.visited = [] then .error else .ok)
      | .exit _ => some .error
      | .fault => none := by
    simp only [esmEbrContextCheckTft, if_pos hpid, hown, ne_eq, not_true_eq_false, if_false, hdata, if_true]
    exact checkBearers_eq_run hin .error
  unfold CheckExact
  rw [hrun]
  constructor
  · rintro ⟨rc, hrc, hexact⟩
    constructor
    · intro hnone
      obtain rfl := hexact.2 hnone
      cases hcase : Turn.run (bearerTurn tft ebi) pdn.visited with
      | next =>
        rw [hcase] at hrc
        have hvisited : pdn.visited ≠ [] := by
          intro hempty
          simp [hempty] at hrc
        refine ⟨hvisited, fun b hb ↦ ?_⟩
        exact (checkBearer_eq_ok_iff.1 (bearerTurn_eq_next_iff.1 (Turn.run_eq_next_iff.1 hcase b hb))).1
      | exit r => simp [hcase] at hrc
      | fault => simp [hcase] at hrc
    · rintro ⟨b, hb, hconflict⟩
      have hnot : rc ≠ .ok := fun hok ↦ hexact.1 hok b hb hconflict
      cases hcase : Turn.run (bearerTurn tft ebi) pdn.visited with
      | next =>
        left
        by_contra hvisited
        simp only [hcase, if_neg hvisited, Option.some_inj] at hrc
        exact hnot hrc.symm
      | exit r =>
        right
        obtain ⟨front, b', rest, heq, hfront, hb'⟩ := (Turn.run_eq_iff (by simp)).1 hcase
        refine ⟨front, b', rest, heq, fun a ha ↦ ?_, ?_⟩
        · exact (checkBearer_eq_ok_iff.1 (bearerTurn_eq_next_iff.1 (hfront a ha))).1
        · exact checkBearer_eq_error_iff.1 (bearerTurn_eq_exit_iff.1 hb')
      | fault => simp [hcase] at hrc
  · rintro ⟨haccepted, hrefused⟩
    by_cases hnone : ∀ b ∈ pdn.bearers, ¬ Conflicts (filters tft) ebi b
    · obtain ⟨hvisited, hcomparable⟩ := haccepted hnone
      have hnext : Turn.run (bearerTurn tft ebi) pdn.visited = .next := by
        rw [Turn.run_eq_next_iff]
        intro b hb
        have hstop : ¬ Stops (filters tft) ebi b :=
          fun hstop ↦ hnone b (mem_bearers_of_mem_visited hn hb) hstop.conflicts
        exact bearerTurn_eq_next_iff.2 (checkBearer_eq_ok_iff.2 ⟨hcomparable b hb, hstop⟩)
      refine ⟨.ok, by simp [hnext, hvisited], iff_of_true rfl hnone⟩
    · have hsome : ∃ b ∈ pdn.bearers, Conflicts (filters tft) ebi b := by
        simpa only [not_forall, not_not, exists_prop] using hnone
      refine ⟨.error, ?_, iff_of_false (by simp) hnone⟩
      cases hrefused hsome with
      | inl hvisited => simp [hvisited, Turn.run]
      | inr hstops =>
        obtain ⟨front, b, rest, heq, hfront, hstop⟩ := hstops
        rw [heq, run_exit_of_stops hfront hstop]

/-- A PDN connection with a default bearer and a dedicated one that has one filter. -/
def oneFilterPdn : EsmPdn where
  nBearers := 2
  bearer i := if i = 0 then some ⟨0, 5, ⟨[]⟩⟩ else if i = 1 then some ⟨1, 6, ⟨[⟨1, 7⟩]⟩⟩ else none

def oneFilterData : EsmData where
  nEbrs := 2
  pdn i := if i = 0 then ⟨0, true, some oneFilterPdn⟩ else ⟨0, false, none⟩

theorem esmEbrContextCheckTft_exact_oneFilter :
    CheckExact oneFilterData 0 7 (some ⟨[⟨2, 8⟩]⟩) oneFilterPdn ↔ Decides ⟨[⟨2, 8⟩]⟩ 7 oneFilterPdn :=
  esmEbrContextCheckTft_exact_iff (by decide) rfl rfl (by decide)

/-- Two new filters against one: the second one is compared with nothing that has been allocated. -/
theorem not_checkExact_twoFilters : ¬ CheckExact oneFilterData 0 7 (some ⟨[⟨2, 8⟩, ⟨3, 9⟩]⟩) oneFilterPdn := by
  rintro ⟨rc, hrc, -⟩
  have hfault : esmEbrContextCheckTft oneFilterData 0 7 (some ⟨[⟨2, 8⟩, ⟨3, 9⟩]⟩) .create = none := by decide
  simp [hfault] at hrc

end EdgeSlice.Nas
