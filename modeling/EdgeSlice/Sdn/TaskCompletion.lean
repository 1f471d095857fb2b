import EdgeSlice.DecimalRounding
import EdgeSlice.Sdn.Controller
import Mathlib.Data.List.Forall2

namespace EdgeSlice.Sdn

open Decimal

/-- The bandwidths of a task, with the addresses that they are for. A text of a number is its
decimal. -/
abbrev Task := List (Address × Decimal)

/-- `float` of the text of a positive number; `none` for an infinite one, for which `eformat` raises a
`ValueError`. -/
def float (text : Decimal) : Option ℚ := binary64 text.value

/-- `str` of a float, which has twelve significant digits. -/
def str (x : ℚ) : Decimal := formatE 11 x

/-- `%` of positive floats. -/
def mod (x y : ℚ) : ℚ := x - y * ⌊x / y⌋

/-- `sig_num`, for the float `temp_num`. -/
def sigNum (tempNum : ℚ) : ℕ :=
  if tempNum < 100 then if mod tempNum 10 = 0 then 1 - 1 else 1
  else if tempNum < 1000 then
    if mod tempNum 100 = 0 then 2 - 2
    else if mod tempNum 10 = 0 then 2 - 1
    else 2
  else 1

/-- `eformat`; the format has two digits for the exponent already. -/
def eformat (f : Decimal) (prec : ℕ) : Option Decimal := (float f).map (formatE prec)

/-- The loop of `cont_config_SDN` over the output of a query, which ends early at another address; `none`
for an `IndexError`. -/
def currentTask : ℕ → Task → Option Task
  | 0, _ => some []
  | _ + 1, [] => none
  | nou + 1, (address, bw) :: data =>
    if "155.0.".toList <:+: address then
      (float bw).bind fun x ↦ (currentTask nou data).map ((address, str x) :: ·)
    else some []

/-- `cont_config_SDN` up to the call of `SDN_complete`; its message has the first two bandwidths. -/
def contConfigSdn (nou : ℕ) (data : Task) : Option Task :=
  (currentTask nou data).filter fun task ↦ 2 ≤ task.length

/-- `BC_task` of `SDN_complete`, for a task that the controller has completed. -/
def sdnComplete (task : Task) : Option Task :=
  task.mapM fun x ↦ (float x.2).bind fun tempNum ↦ (eformat x.2 (sigNum tempNum)).map (x.1, ·)

/-- The task that is built denotes the bandwidths of the ledger. -/
def Kept (data : Task) (bcTask : Task) : Prop :=
  List.Forall₂ (fun x y ↦ y.1 = x.1 ∧ y.2.value = x.2.value) data bcTask

/-- A positive decimal with at most three significant digits, within the range of the doubles. -/
structure LedgerValue (v : ℚ) : Prop where
  hasDigits : HasDigits 3 v
  range : 2 ^ (-1022 : ℤ) ≤ v ∧ v < 2 ^ 1024 - 2 ^ 970

/-- When a bandwidth survives. -/
def Survives (v : ℚ) : Prop := 100 ≤ v ∧ v < 1000 ∨ HasDigits 2 v

variable {v x : ℚ} {nou n : ℕ} {data task : Task} {text : Decimal}

namespace LedgerValue

theorem pos (h : LedgerValue v) : 0 < v := lt_of_lt_of_le (zpow_pos (by norm_num) _) h.range.1

/-- Every exponent of two digits is in the range. -/
theorem of_two_digits (hdigits : HasDigits 3 v) (hmin : 10 ^ (-99 : ℤ) ≤ v) (hmax : v < 10 ^ 100) :
    LedgerValue v where
  hasDigits := hdigits
  range := by
    have hten : (10 : ℚ) ^ 100 ≤ 2 ^ 340 := by
      calc (10 : ℚ) ^ 100 = (10 ^ 3) ^ 33 * 10 := by norm_num
        _ ≤ (2 ^ 10) ^ 33 * 2 ^ 10 := by
          gcongr
          · norm_num
          · norm_num
        _ = 2 ^ 340 := by rw [← pow_mul, ← pow_add]
    have hlow : (2 : ℚ) ^ (-1022 : ℤ) ≤ 10 ^ (-99 : ℤ) := by
      rw [zpow_neg, zpow_neg, inv_le_inv₀ (zpow_pos (by norm_num) _) (zpow_pos (by norm_num) _)]
      have hpow : (2 : ℚ) ^ 340 ≤ 2 ^ 1022 := pow_le_pow_right₀ (by norm_num) (by norm_num)
      have hless : (10 : ℚ) ^ 99 ≤ 10 ^ 100 := pow_le_pow_right₀ (by norm_num) (by norm_num)
      exact_mod_cast hless.trans (hten.trans hpow)
    have hhigh : (2 : ℚ) ^ 340 ≤ 2 ^ 1024 - 2 ^ 970 := by
      have hpow : (2 : ℚ) ^ 340 ≤ 2 ^ 970 := pow_le_pow_right₀ (by norm_num) (by norm_num)
      generalize (2 : ℚ) ^ 340 = c at hpow ⊢
      have hdouble : 2 * (2 : ℚ) ^ 970 ≤ 2 ^ 1024 := by
        rw [← pow_succ']
        exact pow_le_pow_right₀ (by norm_num) (by norm_num)
      generalize (2 : ℚ) ^ 970 = a at hpow hdouble ⊢
      generalize (2 : ℚ) ^ 1024 = b at hdouble ⊢
      linarith
    exact ⟨hlow.trans hmin, hmax.trans_le (hten.trans hhigh)⟩

/-- A float keeps the number, and so does its text. -/
theorem float_eq (h : LedgerValue text.value) : ∃ x, float text = some x ∧ 0 < x ∧
    |x - text.value| ≤ text.value * 2 ^ (-53 : ℤ) ∧ (str x).value = text.value := by
  obtain ⟨x, hfloat, hclose⟩ := binary64_eq h.range.1 h.range.2
  exact ⟨x, hfloat, pos_of_close h.pos hclose, hclose,
    formatE_eq h.pos (h.hasDigits.mono (by decide)) le_rfl hclose⟩

end LedgerValue

/-- A float with at most three digits is the number itself. -/
theorem eq_of_hasDigits (hv : LedgerValue v) (hpos : 0 < x) (hclose : |x - v| ≤ v * 2 ^ (-53 : ℤ))
    (hx : HasDigits n x) (hn : n ≤ 3) : x = v := by
  have hself : (formatE 2 x).value = x := by
    refine formatE_eq hpos (hx.mono hn) (by decide) ?_
    rw [sub_self, abs_zero]
    exact mul_nonneg hpos.le (zpow_nonneg (by norm_num) _)
  have hvalue := formatE_eq hv.pos hv.hasDigits (by decide) hclose
  rw [← hself, hvalue]

/-- A float and the number are on the same side of a power of ten, unless the number is the power. -/
theorem threshold (hv : LedgerValue v) (hpos : 0 < x) (hclose : |x - v| ≤ v * 2 ^ (-53 : ℤ)) (k : ℕ) :
    (10 ^ k ≤ x → 10 ^ k ≤ v) ∧ (x < 10 ^ k → v ≤ 10 ^ k) := by
  have hvalue := formatE_eq hv.pos hv.hasDigits (by decide) hclose
  obtain ⟨hlow, hhigh⟩ := formatE_bounds 2 hpos
  rw [hvalue] at hlow hhigh
  constructor
  · intro hle
    have hlog : (k : ℤ) ≤ Int.log 10 x := (Int.zpow_le_iff_le_log (by decide) hpos).mp (by exact_mod_cast hle)
    have hpow := zpow_le_zpow_right₀ (by norm_num : (1 : ℚ) ≤ 10) hlog
    rw [zpow_natCast] at hpow
    exact hpow.trans hlow
  · intro hlt
    have hlog : Int.log 10 x < (k : ℤ) := (Int.lt_zpow_iff_log_lt (by decide) hpos).mp (by exact_mod_cast hlt)
    have hpow := zpow_le_zpow_right₀ (by norm_num : (1 : ℚ) ≤ 10) (Int.add_one_le_of_lt hlog)
    rw [zpow_natCast] at hpow
    exact hhigh.trans hpow

/-- A multiple has few digits. -/
theorem hasDigits_of_mod {a : ℕ} (e : ℕ) (hpos : 0 < x) (hmod : mod x (10 ^ e) = 0) (hlt : x < 10 ^ (a + e)) :
    HasDigits a x := by
  have hpow : (0 : ℚ) < 10 ^ e := by positivity
  have hfloor : 0 ≤ ⌊x / 10 ^ e⌋ := Int.floor_nonneg.mpr (div_nonneg hpos.le hpow.le)
  obtain ⟨k, hk⟩ := Int.eq_ofNat_of_zero_le hfloor
  have hx : x = k * 10 ^ e := by
    rw [mod, hk] at hmod
    push_cast at hmod
    linarith
  refine ⟨⟨k, e⟩, ?_, ?_⟩
  · rw [hx, pow_add] at hlt
    exact_mod_cast lt_of_mul_lt_mul_right hlt hpow.le
  · rw [value, hx, zpow_natCast]

theorem sigNum_le_one (h : x < 100 ∨ 1000 ≤ x) : sigNum x ≤ 1 := by
  rw [sigNum]
  split_ifs
  · decide
  · decide
  · exact absurd h (by simp only [not_or, not_lt, not_le]; constructor <;> linarith)
  · decide
  · exact absurd h (by simp only [not_or, not_lt, not_le]; constructor <;> linarith)
  · decide

/-- Below a hundred, a text has one digit for a multiple of ten and two for another number. -/
theorem hasDigits_of_lt (hv : LedgerValue v) (hpos : 0 < x) (hclose : |x - v| ≤ v * 2 ^ (-53 : ℤ)) (hlt : x < 100)
    (hdigits : HasDigits 2 v) : HasDigits (sigNum x + 1) v := by
  rw [sigNum, if_pos hlt]
  split_ifs with hmod
  · have hfew : HasDigits 1 x := hasDigits_of_mod 1 hpos (by simpa using hmod) (by norm_num; exact hlt)
    have heq := eq_of_hasDigits hv hpos hclose hfew (by decide)
    rwa [← heq]
  · exact hdigits

/-- From a hundred to a thousand, a text has all digits that a number can have. -/
theorem hasDigits_of_mem (hv : LedgerValue v) (hpos : 0 < x) (hclose : |x - v| ≤ v * 2 ^ (-53 : ℤ)) (hge : ¬x < 100)
    (hlt : x < 1000) : HasDigits (sigNum x + 1) v := by
  rw [sigNum, if_neg hge, if_pos hlt]
  split_ifs with hhundred hten
  · have hfew : HasDigits 1 x := hasDigits_of_mod 2 hpos (by norm_num; exact hhundred) (by norm_num; exact hlt)
    have heq := eq_of_hasDigits hv hpos hclose hfew (by decide)
    rwa [← heq]
  · have hfew : HasDigits 2 x := hasDigits_of_mod 1 hpos (by norm_num; exact hten) (by norm_num; exact hlt)
    have heq := eq_of_hasDigits hv hpos hclose hfew (by decide)
    rwa [← heq]
  · exact hv.hasDigits

/-- The digits that are asked for are enough. -/
theorem survives_iff (hv : LedgerValue v) (hpos : 0 < x) (hclose : |x - v| ≤ v * 2 ^ (-53 : ℤ)) :
    HasDigits (sigNum x + 1) v ↔ Survives v := by
  have hhundred := threshold hv hpos hclose 2
  have hthousand := threshold hv hpos hclose 3
  norm_num at hhundred hthousand
  have hpower (e : ℕ) : HasDigits 1 ((10 : ℚ) ^ e) := ⟨⟨1, e⟩, by norm_num, by simp [value]⟩
  have hfew {e : ℕ} (heq : v = 10 ^ e) : HasDigits 2 v := heq ▸ (hpower e).mono (by decide)
  by_cases hlt : x < 100
  · constructor
    · intro h
      have hle := sigNum_le_one (Or.inl hlt)
      exact Or.inr (h.mono (by omega))
    · intro h
      apply hasDigits_of_lt hv hpos hclose hlt
      obtain hrange | hdigits := h
      · exact hfew (e := 2) (by linarith [hhundred.2 hlt])
      · exact hdigits
  · by_cases hlt' : x < 1000
    · refine iff_of_true (hasDigits_of_mem hv hpos hclose hlt hlt') ?_
      have hge := hhundred.1 (not_lt.mp hlt)
      obtain hless | heq := (hthousand.2 hlt').lt_or_eq
      · exact Or.inl ⟨hge, hless⟩
      · exact Or.inr (hfew (e := 3) (by linarith))
    · have hone : sigNum x = 1 := by
        rw [sigNum, if_neg hlt, if_neg hlt']
      have hge := hthousand.1 (not_lt.mp hlt')
      rw [hone]
      constructor
      · intro h
        exact Or.inr h
      · intro h
        obtain hrange | hdigits := h
        · exact absurd hge (not_le.mpr hrange.2)
        · exact hdigits

/-- What is built for a bandwidth. -/
theorem completed_iff (hv : LedgerValue text.value) : ∃ x bw, float text = some x ∧
    (float (str x)).bind (fun tempNum ↦ eformat (str x) (sigNum tempNum)) = some bw ∧
      (bw.value = text.value ↔ Survives text.value) := by
  obtain ⟨x, hfloat, hpos, hclose, hstr⟩ := hv.float_eq
  have hagain : float (str x) = some x := by
    rw [float, hstr]
    exact hfloat
  have hprec : sigNum x ≤ 11 := by
    rw [sigNum]
    split_ifs <;> decide
  refine ⟨x, formatE (sigNum x) x, hfloat, ?_, ?_⟩
  · rw [hagain, Option.bind_some, eformat, hagain, Option.map_some]
  · rw [formatE_eq_iff hv.pos hprec hclose]
    exact survives_iff hv hpos hclose

theorem currentTask_cons {address : List Char} {bw : Decimal} {data : Task} :
    currentTask (nou + 1) ((address, bw) :: data) =
      if "155.0.".toList <:+: address then
        (float bw).bind fun x ↦ (currentTask nou data).map ((address, str x) :: ·)
      else some [] := rfl

/-- The entries of the executed task, and those of the ledger. -/
theorem currentTask_forall₂ (h : currentTask nou data = some task) :
    List.Forall₂ (fun x y ↦ y.1 = x.1 ∧ ∃ f, float x.2 = some f ∧ y.2 = str f) (data.take task.length) task := by
  induction nou generalizing data task with
  | zero =>
    cases h
    exact List.Forall₂.nil
  | succ nou ih =>
    cases data with
    | nil => cases h
    | cons entry data =>
      obtain ⟨address, bw⟩ := entry
      rw [currentTask_cons] at h
      split_ifs at h
      · obtain ⟨x, hfloat, hmap⟩ := Option.bind_eq_some_iff.mp h
        obtain ⟨rest, hrest, rfl⟩ := Option.map_eq_some_iff.mp hmap
        exact List.Forall₂.cons ⟨rfl, x, hfloat, rfl⟩ (ih hrest)
      · cases h
        exact List.Forall₂.nil

theorem sdnComplete_iff {entries : Task} (hvalues : ∀ x ∈ entries, LedgerValue x.2.value)
    (h : List.Forall₂ (fun x y ↦ y.1 = x.1 ∧ ∃ f, float x.2 = some f ∧ y.2 = str f) entries task) :
    ∃ bcTask, sdnComplete task = some bcTask ∧ (Kept entries bcTask ↔ ∀ x ∈ entries, Survives x.2.value) := by
  induction h with
  | nil => exact ⟨[], rfl, by simp [Kept]⟩
  | @cons x y entries task hxy _ ih =>
    obtain ⟨haddress, f, hfloat, htext⟩ := hxy
    obtain ⟨bcTask, hcomplete, hkept⟩ := ih fun x hx ↦ hvalues x (List.mem_cons_of_mem _ hx)
    obtain ⟨f', bw, hfloat', hbw, hiff⟩ := completed_iff (hvalues x List.mem_cons_self)
    have heq : f' = f := Option.some_inj.mp (hfloat'.symm.trans hfloat)
    subst heq
    obtain ⟨tempNum, hnum, hformat⟩ := Option.bind_eq_some_iff.mp hbw
    refine ⟨(y.1, bw) :: bcTask, ?_, ?_⟩
    · rw [sdnComplete] at hcomplete ⊢
      rw [List.mapM_cons, hcomplete, htext, hnum, Option.bind_some, hformat]
      rfl
    · rw [Kept] at hkept ⊢
      rw [List.forall₂_cons, hkept, List.forall_mem_cons, haddress, eq_self, true_and, hiff]

/-- A completed task denotes the bandwidths of the ledger if all of them survive. -/
theorem completedTask_iff (hvalues : ∀ x ∈ data, LedgerValue x.2.value) (hexecuted : contConfigSdn nou data = some task) :
    ∃ bcTask, sdnComplete task = some bcTask ∧
      (Kept (data.take task.length) bcTask ↔ ∀ x ∈ data.take task.length, Survives x.2.value) := by
  have htask := (Option.filter_eq_some_iff.mp hexecuted).1
  exact sdnComplete_iff (fun x hx ↦ hvalues x (List.mem_of_mem_take hx)) (currentTask_forall₂ htask)

/-- A task for two users. -/
def twoTasks (bw bw' : Decimal) : Task := [("155.0.0.35".toList, bw), ("155.0.0.36".toList, bw')]

theorem twoTasks_executed {bw bw' : Decimal} (h : LedgerValue bw.value) (h' : LedgerValue bw'.value) :
    ∃ task, contConfigSdn 2 (twoTasks bw bw') = some task ∧ task.length = 2 := by
  obtain ⟨x, hfloat, _⟩ := h.float_eq
  obtain ⟨x', hfloat', _⟩ := h'.float_eq
  have hfirst : "155.0.".toList <:+: "155.0.0.35".toList := by decide
  have hsecond : "155.0.".toList <:+: "155.0.0.36".toList := by decide
  refine ⟨[("155.0.0.35".toList, str x), ("155.0.0.36".toList, str x')], ?_, rfl⟩
  rw [contConfigSdn, twoTasks, currentTask_cons, if_pos hfirst, hfloat, Option.bind_some,
    currentTask_cons, if_pos hsecond, hfloat', Option.bind_some]
  rfl

theorem ledgerValue_natCast {n : ℕ} (hn : 0 < n) (hlt : n < 1000) : LedgerValue (⟨n, 0⟩ : Decimal).value := by
  have hvalue : (⟨n, 0⟩ : Decimal).value = n := by simp [value]
  have hone : (1 : ℚ) ≤ n := by exact_mod_cast hn
  have hless : (n : ℚ) < 1000 := by exact_mod_cast hlt
  refine .of_two_digits ⟨⟨n, 0⟩, hlt, rfl⟩ ?_ ?_
  · rw [hvalue]
    exact (zpow_le_one_of_nonpos₀ (by norm_num) (by norm_num)).trans hone
  · rw [hvalue]
    exact hless.trans (by norm_num)

/-- A bandwidth of 125 survives, and so does one of 25. -/
theorem completedTask_survives : ∃ task bcTask, contConfigSdn 2 (twoTasks ⟨125, 0⟩ ⟨25, 0⟩) = some task ∧
    sdnComplete task = some bcTask ∧ Kept ((twoTasks ⟨125, 0⟩ ⟨25, 0⟩).take task.length) bcTask := by
  have h125 : LedgerValue (⟨125, 0⟩ : Decimal).value := ledgerValue_natCast (by decide) (by decide)
  have h25 : LedgerValue (⟨25, 0⟩ : Decimal).value := ledgerValue_natCast (by decide) (by decide)
  obtain ⟨task, htask, _⟩ := twoTasks_executed h125 h25
  have hvalues : ∀ x ∈ twoTasks ⟨125, 0⟩ ⟨25, 0⟩, LedgerValue x.2.value := by
    simp only [twoTasks, List.mem_cons, List.not_mem_nil, or_false, forall_eq_or_imp, forall_eq]
    exact ⟨h125, h25⟩
  obtain ⟨bcTask, hcomplete, hiff⟩ := completedTask_iff hvalues htask
  refine ⟨task, bcTask, htask, hcomplete, hiff.mpr fun x hx ↦ ?_⟩
  have hmem := List.mem_of_mem_take hx
  simp only [twoTasks, List.mem_cons, List.not_mem_nil, or_false] at hmem
  obtain rfl | rfl := hmem
  · exact Or.inl (by norm_num [value])
  · exact Or.inr ⟨⟨25, 0⟩, by norm_num, rfl⟩

theorem not_survives_half : ¬Survives (25 / 2) := by
  intro h
  obtain hrange | ⟨⟨d, e⟩, hd, hvalue⟩ := h
  · norm_num at hrange
  · simp only [value] at hvalue hd
    obtain ⟨n, rfl | rfl⟩ := Int.eq_nat_or_neg e
    · rw [zpow_natCast] at hvalue
      have hdouble : (2 * (d * 10 ^ n) : ℕ) = 25 := by
        have h : (2 : ℚ) * (d * 10 ^ n) = 25 := by linarith
        exact_mod_cast h
      omega
    · rw [zpow_neg, zpow_natCast, ← div_eq_mul_inv, div_eq_iff (by positivity)] at hvalue
      have hdouble : 2 * d = 25 * 10 ^ n := by
        have h : (2 : ℚ) * d = 25 * 10 ^ n := by linarith
        exact_mod_cast h
      cases n with
      | zero => omega
      | succ n =>
        have hpow : 0 < 10 ^ n := by positivity
        rw [pow_succ] at hdouble
        omega

/-- A bandwidth of 12.5 does not. -/
theorem not_completedTask_kept : ¬∀ (nou : ℕ) (data task : Task), (∀ x ∈ data, LedgerValue x.2.value) →
    contConfigSdn nou data = some task →
    ∃ bcTask, sdnComplete task = some bcTask ∧ Kept (data.take task.length) bcTask := by
  intro h
  have hvalue : (⟨125, -1⟩ : Decimal).value = 25 / 2 := by norm_num [value]
  have hhalf : LedgerValue (⟨125, -1⟩ : Decimal).value := by
    refine .of_two_digits ⟨⟨125, -1⟩, by norm_num, rfl⟩ ?_ ?_
    · rw [hvalue]
      exact (zpow_le_one_of_nonpos₀ (by norm_num) (by norm_num)).trans (by norm_num)
    · rw [hvalue]
      norm_num
  have h25 : LedgerValue (⟨25, 0⟩ : Decimal).value := ledgerValue_natCast (by decide) (by decide)
  have hvalues : ∀ x ∈ twoTasks ⟨125, -1⟩ ⟨25, 0⟩, LedgerValue x.2.value := by
    simp only [twoTasks, List.mem_cons, List.not_mem_nil, or_false, forall_eq_or_imp, forall_eq]
    exact ⟨hhalf, h25⟩
  obtain ⟨task, htask, hlength⟩ := twoTasks_executed hhalf h25
  obtain ⟨bcTask, hcomplete, hkept⟩ := h 2 _ task hvalues htask
  have hentries : (twoTasks ⟨125, -1⟩ ⟨25, 0⟩).take task.length = twoTasks ⟨125, -1⟩ ⟨25, 0⟩ := by
    rw [hlength]
    rfl
  have hforall := currentTask_forall₂ (Option.filter_eq_some_iff.mp htask).1
  rw [hentries] at hkept hforall
  obtain ⟨bcTask', hcomplete', hiff⟩ := sdnComplete_iff hvalues hforall
  cases hcomplete.symm.trans hcomplete'
  have hsurvives := hiff.mp hkept ("155.0.0.35".toList, ⟨125, -1⟩) List.mem_cons_self
  rw [hvalue] at hsurvives
  exact not_survives_half hsurvives

end EdgeSlice.Sdn
