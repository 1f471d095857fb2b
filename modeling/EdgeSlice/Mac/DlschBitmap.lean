import EdgeSlice.Countdown
import EdgeSlice.Mac.DlschAccounting
import EdgeSlice.Mac.DlschSizing
import Mathlib.Data.Nat.Bitwise

namespace EdgeSlice.Mac

open Function Countdown

namespace Bandwidth

variable (b : Bandwidth)

/-- What `schedule_ue_spec` counts for a group when it cuts a grant. -/
def cutSize (j : ℕ) : ℤ :=
  if j = b.nRbg - 1 ∧ (b.nRbDl = 25 ∨ b.nRbDl = 50) then getMinRbUnit b.nRbDl - 1
  else getMinRbUnit b.nRbDl

/-- What `allocate_prbs_sub` counts for a group. -/
def dciSize (check : ℕ) : ℤ :=
  match b.nRbDl with
  | 6 => 1
  | 25 => if check = b.nRbg - 1 then 1 else 2
  | 50 => if check = b.nRbg - 1 then 2 else 3
  | 100 => 4
  | _ => 0

/-- The resource blocks of a list of groups. -/
def blocks (js : List ℕ) : ℕ := (js.map (fun j : ℕ ↦ b.rbSize j)).sum

theorem blocks_append (js js' : List ℕ) : b.blocks (js ++ js') = b.blocks js + b.blocks js' := by
  rw [blocks, List.map_append, List.sum_append, ← blocks, ← blocks]

theorem rbSize_pos (j : ℤ) : 0 < b.rbSize j := by
  rw [rbSize]
  split <;> cases b <;> decide

theorem rbSize_le_rbgSize (j : ℤ) : b.rbSize j ≤ b.rbgSize := by
  rw [rbSize]
  split <;> cases b <;> decide

theorem dciSize_le (j : ℕ) : b.dciSize j ≤ b.rbSize j := by
  have hlast : ((j : ℤ) = b.nRbg - 1) ↔ j = b.nRbg - 1 := by
    cases b <;> (rw [nRbg]; omega)
  rw [rbSize]
  simp only [hlast]
  by_cases hj : j = b.nRbg - 1 <;> cases b <;> simp [dciSize, nRbDl, hj, rbgSize, rbgSizeLast]

theorem cutSize_pos (j : ℕ) : 0 < b.cutSize j := by
  rw [cutSize]
  split
  · next h => cases b <;> simp_all [nRbDl, getMinRbUnit]
  · have := getMinRbUnit_bounds b.nRbDl
    omega

theorem cutSize_le (j : ℕ) : b.cutSize j ≤ 4 := by
  have := getMinRbUnit_bounds b.nRbDl
  rw [cutSize]
  split <;> omega

theorem rbgSize_eq (h : b ≠ rb75) : (b.rbgSize : ℤ) = getMinRbUnit b.nRbDl := by
  cases b
  case rb75 => exact absurd rfl h
  all_goals rfl

end Bandwidth

/-- `allocate_prbs_sub`: the bitmap of a DCI. -/
def allocatePrbsSub (b : Bandwidth) (nbRb : ℤ) (rballoc : ℕ → ℕ) : ℕ :=
  walk (fun left : ℤ ↦ decide (0 < left)) (fun left check ↦ left - b.dciSize check)
    (fun check ↦ rballoc check == 1) (fun dci check ↦ dci ||| 1 <<< (b.nRbg - 1 - check))
    (List.range b.nRbg) nbRb 0

/-- What `schedule_ue_spec` stores in `rballoc_subband` for `nbRb` resource blocks. -/
def rballocSubband (b : Bandwidth) (rballocSubUe : ℕ → ℕ) (preNbAvailableRbs nbRb : ℕ) : ℕ → ℕ :=
  if nbRb = preNbAvailableRbs then fun j ↦ if j < b.nRbg then rballocSubUe j else 0
  else
    walk (fun left : ℕ ↦ decide (0 < left)) (fun left j ↦ uint16 (left - b.cutSize j))
      (fun j ↦ rballocSubUe j == 1) (fun bits j ↦ update bits j (rballocSubUe j))
      (List.range b.nRbg) nbRb (fun _ ↦ 0)

/-- The pre-processor marks the groups of a UE with 0 and 1. -/
theorem runTurns_binary {mac : EnbMac} {slices : GlobalInfos} {minRbUnit : ℕ → ℤ}
    {nbRbsRequired : ℕ → ℕ → ℕ} {st st' : DlState} (hst : Cleared st)
    (h : runTurns mac slices minRbUnit nbRbsRequired st (turns mac slices) = some st') (ue cc : ℕ)
    (k : ℤ) : (st'.ueSchedCtrl ue).rballocSubUE cc k ≤ 1 := by
  by_cases hturn : ∃ t ∈ turns mac slices, ue = t.ue ∧ cc = t.cc
  · obtain ⟨t, ht, rfl, rfl⟩ := hturn
    obtain ⟨before, after, hsplit⟩ := List.append_of_mem ht
    have hkeys := turns_keys mac slices
    rw [hsplit] at h hkeys
    obtain ⟨s, -, -, hmarked, -⟩ := runTurns_split h hkeys
    rw [hmarked, hst.rballocSubUE]
    split <;> decide
  · have hother : ∀ t ∈ turns mac slices, ¬ (ue = t.ue ∧ cc = t.cc) := fun t ht hkey ↦
      hturn ⟨t, ht, hkey⟩
    rw [(runTurns_frame h hother).1, hst.rballocSubUE]
    exact Nat.zero_le 1

/-- A UE on a carrier after the pre-processor. `nbRb` is the number of resource blocks of
the block that its HARQ process holds. -/
structure DlUe where
  grant : DlGrant
  rballocSubUe : ℕ → ℕ
  binary : ∀ j, rballocSubUe j ≤ 1
  round : ℕ
  nbRb : ℕ

namespace DlUe

variable (u : DlUe)

/-- The groups that the pre-processor has marked. -/
def groups : List ℕ := (List.range u.grant.bandwidth.nRbg).filter (fun j ↦ u.rballocSubUe j == 1)

/-- The count of the pre-processor is right. -/
def Exact : Prop := u.grant.nbAvailableRb = u.grant.bandwidth.blocks u.groups

/-- The resource blocks that `schedule_ue_spec` schedules for the UE, if any. -/
def scheduleUeSpec (table : TbsTable) (rlc : Rlc) (buf fill : ℕ → ℕ) : Option ℕ :=
  if u.grant.nbAvailableRb = 0 then none
  else if 0 < u.round then if u.nbRb ≤ u.grant.nbAvailableRb then some u.nbRb else none
  else (scheduleNewTransmission table rlc u.grant buf fill).map DlschPdu.nbRb

def stored (nb : ℕ) : ℕ → ℕ :=
  rballocSubband u.grant.bandwidth u.rballocSubUe u.grant.nbAvailableRb nb

/-- The bitmap that `fill_DLSCH_dci` puts into the DCI; its `nb_rb` has 8 bits. -/
def fillDlschDci (nb : ℕ) : ℕ := allocatePrbsSub u.grant.bandwidth (uint8 nb) (u.stored nb)

/-- The two bitmaps agree, stay inside the grant and have the blocks that were
scheduled. -/
structure Consistent (nb : ℕ) : Prop where
  same : ∀ j < u.grant.bandwidth.nRbg, u.stored nb j = 1 ↔
    (u.fillDlschDci nb).testBit (u.grant.bandwidth.nRbg - 1 - j) = true
  inside : ∀ j < u.grant.bandwidth.nRbg, u.stored nb j = 1 → u.rballocSubUe j = 1
  blocks : u.grant.bandwidth.blocks
    ((List.range u.grant.bandwidth.nRbg).filter (fun j ↦ u.stored nb j == 1)) = nb

/-- The whole grant, or whole groups that leave some of it over. -/
def Cuttable (nb : ℕ) : Prop :=
  nb = u.grant.nbAvailableRb ∨
    nb < u.grant.nbAvailableRb ∧ u.grant.minRbUnit ∣ nb ∧ (u.grant.bandwidth = .rb75 → nb = 0)

/-- The groups that `schedule_ue_spec` takes. -/
def cut (nb : ℕ) : List ℕ :=
  if nb = u.grant.nbAvailableRb then u.groups
  else paid (fun left : ℕ ↦ decide (0 < left))
    (fun left j ↦ uint16 (left - u.grant.bandwidth.cutSize j)) u.groups nb

end DlUe

theorem foldl_update_apply (f g : ℕ → ℕ) (js : List ℕ) (i : ℕ) :
    (js.foldl (fun bits j ↦ update bits j (f j)) g) i = if i ∈ js then f i else g i := by
  induction js generalizing g with
  | nil => rfl
  | cons j js ih =>
    rw [List.foldl_cons, ih]
    by_cases hi : i ∈ js
    · rw [if_pos hi, if_pos (List.mem_cons_of_mem j hi)]
    · rw [if_neg hi]
      by_cases hij : i = j
      · rw [hij, update_self, if_pos List.mem_cons_self]
      · rw [update_of_ne hij, if_neg (by simp [hi, hij])]

theorem foldl_or_testBit (n : ℕ) (js : List ℕ) (hjs : ∀ j ∈ js, j < n) (dci : ℕ) {i : ℕ}
    (hi : i < n) :
    (js.foldl (fun dci j ↦ dci ||| 1 <<< (n - 1 - j)) dci).testBit (n - 1 - i) = true ↔
      i ∈ js ∨ dci.testBit (n - 1 - i) = true := by
  induction js generalizing dci with
  | nil => simp
  | cons j js ih =>
    obtain ⟨hj, hjs⟩ := List.forall_mem_cons.mp hjs
    have hbit : (1 <<< (n - 1 - j)).testBit (n - 1 - i) = true ↔ i = j := by
      rw [Nat.one_shiftLeft, Nat.testBit_two_pow, decide_eq_true_eq]
      omega
    rw [List.foldl_cons, ih hjs, Nat.testBit_or, Bool.or_eq_true, hbit, List.mem_cons]
    tauto

namespace DlUe

variable {u : DlUe} {nb : ℕ}

theorem mem_groups {j : ℕ} : j ∈ u.groups ↔ j < u.grant.bandwidth.nRbg ∧ u.rballocSubUe j = 1 := by
  rw [groups, List.mem_filter, List.mem_range, beq_iff_eq]

theorem groups_sorted (u : DlUe) : u.groups.Pairwise (· < ·) := List.pairwise_lt_range.filter _

theorem groups_length_le (u : DlUe) : u.groups.length ≤ nRbgMax := by
  have hle : u.groups.length ≤ (List.range u.grant.bandwidth.nRbg).length := List.length_filter_le ..
  rw [List.length_range] at hle
  exact hle.trans u.grant.bandwidth.nRbg_le

theorem cut_prefix (u : DlUe) (nb : ℕ) : u.cut nb <+: u.groups := by
  rw [cut]
  split
  · exact List.prefix_rfl
  · exact paid_start _ _

theorem stored_iff {j : ℕ} (hj : j < u.grant.bandwidth.nRbg) : u.stored nb j = 1 ↔ j ∈ u.cut nb := by
  rw [stored, rballocSubband, cut]
  split
  · simp only [mem_groups, hj, if_true, true_and]
  · rw [walk_eq, foldl_update_apply, ← groups]
    split
    · next hpaid => exact iff_of_true (mem_groups.mp ((paid_start _ _).mem hpaid)).2 hpaid
    · next hpaid => exact iff_of_false (by decide) hpaid

theorem fillDlschDci_iff (hnb : nb < 256)
    (hblocks : u.grant.bandwidth.blocks
      ((List.range u.grant.bandwidth.nRbg).filter (fun j ↦ u.stored nb j == 1)) = nb) {j : ℕ}
    (hj : j < u.grant.bandwidth.nRbg) :
    (u.fillDlschDci nb).testBit (u.grant.bandwidth.nRbg - 1 - j) = true ↔ u.stored nb j = 1 := by
  have hpaid : paid (fun left : ℤ ↦ decide (0 < left))
      (fun left check ↦ left - u.grant.bandwidth.dciSize check)
      ((List.range u.grant.bandwidth.nRbg).filter (fun j ↦ u.stored nb j == 1)) (nb : ℤ) =
      (List.range u.grant.bandwidth.nRbg).filter (fun j ↦ u.stored nb j == 1) := by
    refine paid_all (fun left ↦ left) (fun j ↦ u.grant.bandwidth.rbSize j)
      (fun left hleft ↦ decide_eq_true hleft) (fun left check ↦ ?_)
      (fun check _ ↦ u.grant.bandwidth.rbSize_pos check) ?_
    · have := u.grant.bandwidth.dciSize_le check
      omega
    · exact_mod_cast hblocks.le
  rw [fillDlschDci, allocatePrbsSub, walk_eq, uint8_of_lt hnb, hpaid, foldl_or_testBit _ _ _ _ hj,
    Nat.zero_testBit, List.mem_filter, List.mem_range, beq_iff_eq]
  · simp [hj]
  · intro i hi
    exact List.mem_range.mp (List.mem_filter.mp hi).1

/-- The bitmaps are consistent if and only if the groups taken have the right size: the
DCI then takes the same ones. -/
theorem consistent_iff (hnb : nb < 256) :
    u.Consistent nb ↔ u.grant.bandwidth.blocks (u.cut nb) = nb := by
  have hperm : ((List.range u.grant.bandwidth.nRbg).filter (fun j ↦ u.stored nb j == 1)).Perm
      (u.cut nb) := by
    refine (List.perm_ext_iff_of_nodup (List.nodup_range.filter _) ?_).mpr (fun j ↦ ?_)
    · exact (List.nodup_range.filter _).sublist (u.cut_prefix nb).sublist
    · rw [List.mem_filter, List.mem_range, beq_iff_eq]
      constructor
      · rintro ⟨hj, hstored⟩
        exact (stored_iff hj).mp hstored
      · intro hj
        have hlt := (mem_groups.mp ((u.cut_prefix nb).mem hj)).1
        exact ⟨hlt, (stored_iff hlt).mpr hj⟩
  have hblocks := (hperm.map (fun j : ℕ ↦ u.grant.bandwidth.rbSize j)).sum_eq
  constructor
  · intro h
    exact hblocks.symm.trans h.blocks
  · intro h
    have hsize := hblocks.trans h
    refine ⟨fun j hj ↦ (fillDlschDci_iff hnb hsize hj).symm, fun j hj hstored ↦ ?_, hsize⟩
    exact (mem_groups.mp ((u.cut_prefix nb).mem ((stored_iff hj).mp hstored))).2

theorem front_sizes {front back : List ℕ} (h : u.groups = front ++ back) (hback : back ≠ []) :
    u.grant.bandwidth.blocks front = u.grant.bandwidth.rbgSize * front.length ∧
      (front.map u.grant.bandwidth.cutSize).sum = u.grant.minRbUnit * front.length := by
  have hlast : ∀ j ∈ front, j + 1 < u.grant.bandwidth.nRbg := by
    intro j hj
    obtain ⟨k, hk⟩ := List.exists_mem_of_ne_nil back hback
    have hsorted := u.groups_sorted
    rw [h] at hsorted
    have hlt := (List.pairwise_append.mp hsorted).2.2 j hj k hk
    have hband := (mem_groups.mp (h ▸ List.mem_append_right front hk)).1
    omega
  constructor
  · rw [Bandwidth.blocks, List.map_congr_left (g := fun _ ↦ u.grant.bandwidth.rbgSize),
      List.map_const', List.sum_replicate, nsmul_eq_mul, Nat.cast_id, Nat.mul_comm]
    intro j hj
    have := hlast j hj
    exact if_neg (by omega)
  · rw [List.map_congr_left (g := fun _ ↦ u.grant.minRbUnit), List.map_const', List.sum_replicate,
      nsmul_eq_mul, mul_comm]
    intro j hj
    have := hlast j hj
    exact if_neg (by omega)

theorem sum_cutSize_le (u : DlUe) {js : List ℕ} (hjs : js.length ≤ nRbgMax) :
    (js.map u.grant.bandwidth.cutSize).sum ≤ 100 := by
  have hle : (js.map u.grant.bandwidth.cutSize).sum ≤
      (js.map u.grant.bandwidth.cutSize).length • (4 : ℤ) :=
    List.sum_le_card_nsmul _ _ (List.forall_mem_map.mpr fun j _ ↦ u.grant.bandwidth.cutSize_le j)
  rw [List.length_map, nsmul_eq_mul] at hle
  rw [nRbgMax] at hjs
  omega

theorem blocks_pos (b : Bandwidth) {js : List ℕ} (h : js ≠ []) : 0 < b.blocks js := by
  obtain ⟨j, js, rfl⟩ := List.exists_cons_of_ne_nil h
  have := b.rbSize_pos j
  rw [Bandwidth.blocks, List.map_cons, List.sum_cons]
  omega

theorem blocks_le (b : Bandwidth) (js : List ℕ) : b.blocks js ≤ b.rbgSize * js.length := by
  have hle := List.sum_le_card_nsmul (js.map (fun j : ℕ ↦ b.rbSize j)) b.rbgSize
    (List.forall_mem_map.mpr fun j _ ↦ b.rbSize_le_rbgSize j)
  rwa [List.length_map, nsmul_eq_mul, Nat.cast_id, Nat.mul_comm] at hle

theorem cuttable_of_blocks (hexact : u.Exact) (hnb : nb < 65536)
    (hblocks : u.grant.bandwidth.blocks (u.cut nb) = nb) : u.Cuttable nb := by
  by_cases hall : u.cut nb = u.groups
  · exact .inl (hblocks.symm.trans (hall ▸ hexact.symm))
  · obtain ⟨back, hsplit⟩ := u.cut_prefix nb
    have hback : back ≠ [] := by
      rintro rfl
      exact hall (by rwa [List.append_nil] at hsplit)
    have hne : nb ≠ u.grant.nbAvailableRb := fun h ↦ hall (if_pos h)
    obtain ⟨hsize, hcost⟩ := front_sizes hsplit.symm hback
    have hpaid := paid_wrapping u.grant.bandwidth.cutSize u.groups
      (fun j _ ↦ (u.grant.bandwidth.cutSize_pos j).le) (show (nb : ℤ) < 65536 by omega)
      (by have := sum_cutSize_le u u.groups_length_le; omega)
    have hcut : paid (fun left : ℕ ↦ decide (0 < left))
        (fun left j ↦ uint16 (left - u.grant.bandwidth.cutSize j)) u.groups nb = u.cut nb :=
      (if_neg hne).symm
    rw [uint16_of_lt hnb, hcut, or_iff_right hall, hcost] at hpaid
    have hexact' : u.grant.nbAvailableRb = nb + u.grant.bandwidth.blocks back := by
      rw [hexact, ← hsplit, Bandwidth.blocks_append, hblocks]
    have hpos := blocks_pos u.grant.bandwidth hback
    refine .inr ⟨by omega, ⟨_, hpaid.symm⟩, fun hwide ↦ ?_⟩
    rw [hblocks, hwide, Bandwidth.rbgSize] at hsize
    rw [DlGrant.minRbUnit, hwide] at hpaid
    have hunit : getMinRbUnit Bandwidth.rb75.nRbDl = 2 := rfl
    rw [hunit] at hpaid
    omega

theorem blocks_of_cuttable (hexact : u.Exact) (h : u.Cuttable nb) :
    u.grant.bandwidth.blocks (u.cut nb) = nb := by
  rcases h with hwhole | ⟨hlt, ⟨c, hc⟩, hwide⟩
  · rw [cut, if_pos hwhole, hwhole]
    exact hexact.symm
  · have hunit := getMinRbUnit_bounds u.grant.bandwidth.nRbDl
    rw [cut, if_neg hlt.ne]
    by_cases hzero : nb = 0
    · rw [hzero, paid_of_not_more _ rfl]
      rfl
    · have hsize := u.grant.bandwidth.rbgSize_eq (fun hb ↦ hzero (hwide hb))
      rw [← DlGrant.minRbUnit] at hunit hsize
      obtain ⟨i, rfl⟩ : ∃ i : ℕ, c = i := Int.eq_ofNat_of_zero_le (by nlinarith)
      have hroom : i < u.groups.length := by
        have hle := blocks_le u.grant.bandwidth u.groups
        rw [← hexact] at hle
        have hlt' : u.grant.minRbUnit * i < u.grant.minRbUnit * u.groups.length := by
          rw [← hc, ← hsize]
          exact_mod_cast hlt.trans_le hle
        exact_mod_cast lt_of_mul_lt_mul_left hlt' (by omega)
      have hsplit : u.groups = u.groups.take i ++ u.groups.drop i := (List.take_append_drop ..).symm
      have hback : u.groups.drop i ≠ [] := fun hnil ↦ by
        have := List.drop_eq_nil_iff.mp hnil
        omega
      obtain ⟨hblocks, hcost⟩ := front_sizes hsplit hback
      rw [List.length_take_of_le hroom.le] at hblocks hcost
      have hsmall : nb < 65536 := by
        have := u.grant.nbAvailableRb_le
        rw [nRbgMax] at this
        omega
      have hpaid := paid_exact u.grant.bandwidth.cutSize (u.groups.take i) (u.groups.drop i)
        (fun j _ ↦ u.grant.bandwidth.cutSize_pos j) (by omega)
      rw [← hsplit, hcost, ← hc, uint16_of_lt hsmall] at hpaid
      rw [hpaid, hblocks]
      exact_mod_cast (hsize ▸ hc).symm

/-- The numbers of resource blocks that the search for a new transmission tries. -/
def Tried (u : DlUe) (nb : ℕ) : Prop :=
  nb = u.grant.firstRbs ∨
    nb ≤ u.grant.nbAvailableRb ∧ ∃ k, nb = u.grant.firstRbs + u.grant.minRbUnit.toNat * (k + 1)

theorem firstRbs_bounds (g : DlGrant) : 1 ≤ g.firstRbs ∧ g.firstRbs ≤ 4 := by
  have hunit := getMinRbUnit_bounds g.bandwidth.nRbDl
  rw [DlGrant.firstRbs, DlGrant.minRbUnit]
  split <;> omega

/-- The sizes tried after one that can be cut can be cut. -/
theorem Cuttable.later (h : u.Cuttable nb) {nb' k : ℕ} (hpos : 0 < nb)
    (hle : nb' ≤ u.grant.nbAvailableRb) (hnext : nb' = nb + u.grant.minRbUnit.toNat * (k + 1)) :
    u.Cuttable nb' := by
  have hunit := getMinRbUnit_bounds u.grant.bandwidth.nRbDl
  rw [← DlGrant.minRbUnit] at hunit
  have hstep : 0 < u.grant.minRbUnit.toNat * (k + 1) := Nat.mul_pos (by omega) (Nat.succ_pos k)
  rcases h with hwhole | ⟨-, hdvd, hwide⟩
  · omega
  · by_cases hall : nb' = u.grant.nbAvailableRb
    · exact .inl hall
    · refine .inr ⟨by omega, ?_, fun hb ↦ absurd (hwide hb) hpos.ne'⟩
      rw [hnext, Nat.cast_add, Nat.cast_mul, Int.toNat_of_nonneg (by omega)]
      exact dvd_add hdvd (Dvd.intro _ rfl)

theorem find?_getD_iff {Q : ℕ → Prop} {fits : ℕ → Bool} {ns : List ℕ} {d : ℕ} (hd : Q d)
    (hns : ns.Pairwise (fun m n ↦ Q m → Q n)) :
    Q ((ns.find? fits).getD d) ↔ ∀ n ∈ ns, ¬ Q n → fits n = false := by
  induction ns with
  | nil => simpa using hd
  | cons n ns ih =>
    obtain ⟨hlater, hns⟩ := List.pairwise_cons.mp hns
    rw [List.forall_mem_cons]
    cases hfits : fits n with
    | false =>
      rw [List.find?_cons_of_neg (by simp [hfits]), ih hns]
      simp
    | true =>
      rw [List.find?_cons_of_pos hfits, Option.getD_some]
      constructor
      · intro hn
        exact ⟨absurd hn, fun m hm hno ↦ absurd (hlater m hm hn) hno⟩
      · intro h
        by_contra hno
        exact absurd (h.1 hno) (by decide)

theorem mem_triedTail {n : ℕ} :
    n ∈ (List.range' (u.grant.firstRbs + u.grant.minRbUnit.toNat) u.grant.nbAvailableRb
      u.grant.minRbUnit.toNat).filter (· ≤ u.grant.nbAvailableRb) ↔
    n ≤ u.grant.nbAvailableRb ∧ ∃ k, n = u.grant.firstRbs + u.grant.minRbUnit.toNat * (k + 1) := by
  have hunit := getMinRbUnit_bounds u.grant.bandwidth.nRbDl
  rw [← DlGrant.minRbUnit] at hunit
  have hfirst := firstRbs_bounds u.grant
  rw [List.mem_filter, List.mem_range', decide_eq_true_eq, and_comm]
  refine and_congr_right (fun hle ↦ ?_)
  constructor
  · rintro ⟨i, -, rfl⟩
    exact ⟨i, by ring⟩
  · rintro ⟨k, rfl⟩
    have hk : k + 1 ≤ u.grant.minRbUnit.toNat * (k + 1) := Nat.le_mul_of_pos_left _ (by omega)
    exact ⟨k, by omega, by ring⟩

/-- What the search ends with can be cut if and only if all it tries that cannot be cut is
too small. -/
theorem neededRbs_cuttable_iff (u : DlUe) (table : TbsTable) (target : ℕ) :
    u.Cuttable (neededRbs table u.grant.mcs1 u.grant.firstRbs u.grant.minRbUnit.toNat
      u.grant.nbAvailableRb target) ↔
    ∀ nb, u.Tried nb → ¬ u.Cuttable nb → table.tbs u.grant.mcs1 nb < target := by
  have hfirst := firstRbs_bounds u.grant
  have hunit := getMinRbUnit_bounds u.grant.bandwidth.nRbDl
  rw [← DlGrant.minRbUnit] at hunit
  have htried : ∀ nb, u.Tried nb ↔ nb ∈ u.grant.firstRbs ::
      (List.range' (u.grant.firstRbs + u.grant.minRbUnit.toNat) u.grant.nbAvailableRb
        u.grant.minRbUnit.toNat).filter (· ≤ u.grant.nbAvailableRb) := by
    intro nb
    rw [List.mem_cons, mem_triedTail, Tried]
  have hsorted : (u.grant.firstRbs ::
      (List.range' (u.grant.firstRbs + u.grant.minRbUnit.toNat) u.grant.nbAvailableRb
        u.grant.minRbUnit.toNat).filter (· ≤ u.grant.nbAvailableRb)).Pairwise
      (fun m n ↦ u.Cuttable m → u.Cuttable n) := by
    refine List.pairwise_cons.mpr ⟨fun n hn hcut ↦ ?_, ?_⟩
    · obtain ⟨hle, k, hk⟩ := mem_triedTail.mp hn
      exact hcut.later (by omega) hle hk
    · refine List.Pairwise.imp_of_mem ?_
        ((List.pairwise_lt_range' _ (by omega)).filter _ : List.Pairwise (· < ·) _)
      intro m n hm hn hlt hcut
      obtain ⟨-, i, rfl⟩ := mem_triedTail.mp hm
      obtain ⟨hle, k, rfl⟩ := mem_triedTail.mp hn
      have hik : i < k := by
        by_contra hge
        have := Nat.mul_le_mul_left u.grant.minRbUnit.toNat (show k + 1 ≤ i + 1 by omega)
        omega
      obtain ⟨d, rfl⟩ := Nat.exists_eq_add_of_lt hik
      exact hcut.later (by omega) hle (k := d) (by ring)
  rw [neededRbs, find?_getD_iff (Q := u.Cuttable) (.inl rfl) hsorted]
  simp only [htried, decide_eq_false_iff_not, not_le]

theorem neededRbs_le (u : DlUe) (table : TbsTable) (target : ℕ) :
    neededRbs table u.grant.mcs1 u.grant.firstRbs u.grant.minRbUnit.toNat u.grant.nbAvailableRb
      target ≤ 100 := by
  have havail := u.grant.nbAvailableRb_le
  have hfirst := firstRbs_bounds u.grant
  rw [nRbgMax] at havail
  rw [neededRbs]
  cases hfound : (u.grant.firstRbs :: (List.range' (u.grant.firstRbs + u.grant.minRbUnit.toNat)
      u.grant.nbAvailableRb u.grant.minRbUnit.toNat).filter (· ≤ u.grant.nbAvailableRb)).find?
      (fun nbRb ↦ decide (target ≤ table.tbs u.grant.mcs1 nbRb)) with
  | none => exact havail
  | some nb =>
    rw [Option.getD_some]
    rcases List.mem_cons.mp (List.mem_of_find?_eq_some hfound) with rfl | htail
    · omega
    · have := (mem_triedTail.mp htail).1
      omega

theorem scheduleNewTransmission_nbRb (table : TbsTable) (rlc : Rlc) (g : DlGrant)
    (buf fill : ℕ → ℕ) :
    let m := collectSdus rlc (g.offeredTbs table) g.taLen
    (scheduleNewTransmission table rlc g buf fill).map DlschPdu.nbRb =
      if m.sdus = [] ∧ g.taLen + 2 < g.offeredTbs table then none
      else some (neededRbs table g.mcs1 g.firstRbs g.minRbUnit.toNat g.nbAvailableRb
        (blockTarget m.dcchSdus m.dtchSdus g.taLen)) := by
  intro m
  have hm : Collected m (g.offeredTbs table) g.taLen :=
    collectSdus_spec rlc (g.offeredTbs table) g.taLen
  rw [scheduleNewTransmission]
  by_cases hsend : 0 < m.sduLengthTotal + m.headerLenDcch + m.headerLenDtch
  · have hsome : ¬ (m.sdus = [] ∧ g.taLen + 2 < g.offeredTbs table) := fun h ↦
      hsend.ne' (hm.nothing h.1 h.2)
    rw [if_pos hsend, if_neg hsome, Option.map_some, ← hm.need_eq hsend, ← g.nbRb_eq table]
    rfl
  · rw [if_neg hsend, if_pos (hm.of_nothing (by omega))]
    rfl

/-- Where the pre-processor has counted right, whatever `schedule_ue_spec` schedules for
the UE has consistent bitmaps if and only if the block to retransmit can be cut out of the
grant, or all sizes tried for a new one that cannot be cut out of it are too small. -/
theorem dlsch_bitmap_iff (u : DlUe) (hexact : u.Exact) (table : TbsTable) (rlc : Rlc)
    (buf fill : ℕ → ℕ) :
    (∀ nb, u.scheduleUeSpec table rlc buf fill = some nb → u.Consistent nb) ↔
      (0 < u.round → u.nbRb ≤ u.grant.nbAvailableRb → u.Cuttable u.nbRb) ∧
      (u.round = 0 → u.grant.nbAvailableRb ≠ 0 →
        let m := collectSdus rlc (u.grant.offeredTbs table) u.grant.taLen
        let target := blockTarget m.dcchSdus m.dtchSdus u.grant.taLen
        (m.sdus = [] ∧ u.grant.taLen + 2 < u.grant.offeredTbs table) ∨
          ∀ nb, u.Tried nb → ¬ u.Cuttable nb → table.tbs u.grant.mcs1 nb < target) := by
  have havail := u.grant.nbAvailableRb_le
  rw [nRbgMax] at havail
  have hiff : ∀ nb, nb ≤ 100 → (u.Consistent nb ↔ u.Cuttable nb) := fun nb hnb ↦
    (consistent_iff (by omega)).trans
      ⟨cuttable_of_blocks hexact (by omega), blocks_of_cuttable hexact⟩
  rw [scheduleUeSpec]
  by_cases hnone : u.grant.nbAvailableRb = 0
  · rw [if_pos hnone]
    refine iff_of_true (fun nb h ↦ absurd h (Option.some_ne_none nb).symm) ⟨fun _ hle ↦ ?_, ?_⟩
    · exact .inl (by omega)
    · exact fun _ hsome ↦ absurd hnone hsome
  · rw [if_neg hnone]
    by_cases hround : 0 < u.round
    · rw [if_pos hround]
      by_cases hle : u.nbRb ≤ u.grant.nbAvailableRb
      · simp only [hle, hround, hround.ne', if_true, Option.some.injEq, forall_eq',
          hiff u.nbRb (by omega), true_implies, false_implies, and_true]
      · simp only [hle, hround, hround.ne', if_false, reduceCtorEq, false_implies, implies_true,
          and_self]
    · have hnew : u.round = 0 := by omega
      rw [if_neg hround, scheduleNewTransmission_nbRb]
      by_cases hnothing : (collectSdus rlc (u.grant.offeredTbs table) u.grant.taLen).sdus = [] ∧
          u.grant.taLen + 2 < u.grant.offeredTbs table
      · rw [if_pos hnothing]
        refine iff_of_true (fun nb h ↦ absurd h (Option.some_ne_none nb).symm) ⟨?_, ?_⟩
        · exact fun hretx ↦ absurd hretx hround
        · exact fun _ _ ↦ .inl hnothing
      · rw [if_neg hnothing]
        dsimp only
        rw [← u.neededRbs_cuttable_iff]
        simp only [Option.some.injEq, forall_eq', hiff _ (neededRbs_le u table _), lt_self_iff_false,
          hnew, hnone, hnothing, false_implies, true_implies, true_and, false_or, ne_eq, not_false_eq_true]

/-- Four groups at 5 MHz, with nothing to retransmit. -/
def fourGroups : DlUe where
  grant := .eightRbs
  rballocSubUe j := if j < 4 then 1 else 0
  binary j := by split <;> decide
  round := 0
  nbRb := 0

theorem fourGroups_exact : fourGroups.Exact := by
  rw [Exact]
  decide +kernel

theorem dlsch_bitmap_fourGroups :
    ∃ nb, fourGroups.scheduleUeSpec linearTbs (.single dcch 20) (fun _ ↦ 0) (fun _ ↦ 0) = some nb ∧
      fourGroups.Consistent nb := by
  have hfirst : fourGroups.Cuttable fourGroups.grant.firstRbs :=
    .inr ⟨by decide, by decide, fun h ↦ by cases h⟩
  have hcut : ∀ nb, fourGroups.Tried nb → fourGroups.Cuttable nb := by
    rintro nb (rfl | ⟨hle, k, hk⟩)
    · exact hfirst
    · exact hfirst.later (by decide) hle hk
  have hiff := dlsch_bitmap_iff fourGroups fourGroups_exact linearTbs (.single dcch 20) (fun _ ↦ 0)
    (fun _ ↦ 0)
  exact ⟨6, rfl, hiff.mpr ⟨fun h ↦ absurd h (by decide), fun _ _ ↦ .inr fun nb htried hno ↦
    absurd (hcut nb htried) hno⟩ 6 rfl⟩

/-- Three groups at 10 MHz for a UE with the lowest CQI. -/
def threeGroups : DlUe where
  grant :=
    { bandwidth := .rb50
      dlCqi := 0
      nbAvailableRb := 9
      nbAvailableRb_le := by decide
      taUpdate := 0
      dlPowOff := 2 }
  rballocSubUe j := if j < 3 then 1 else 0
  binary j := by split <;> decide
  round := 0
  nbRb := 0

/-- Four resource blocks are scheduled, and all nine are marked. -/
theorem not_dlsch_bitmap :
    ¬ ∀ (u : DlUe), u.Exact → ∀ (table : TbsTable) (rlc : Rlc) (buf fill : ℕ → ℕ) (nb : ℕ),
      u.scheduleUeSpec table rlc buf fill = some nb → u.Consistent nb := by
  intro h
  have hexact : threeGroups.Exact := by
    rw [Exact]
    decide +kernel
  have hconsistent := h threeGroups hexact linearTbs (.single dcch 3) (fun _ ↦ 0) (fun _ ↦ 0) 4 rfl
  have hblocks := hconsistent.blocks
  revert hblocks
  decide +kernel

end DlUe

end EdgeSlice.Mac
