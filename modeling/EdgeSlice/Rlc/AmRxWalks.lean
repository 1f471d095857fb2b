import EdgeSlice.Rlc.AmRxArrival

namespace EdgeSlice.Rlc

theorem amDiffSn_snAt_add {a b d r : ℕ} (ha : a < 1024) (hb : b < 1024) (hle : r ≤ amDiffSn a b)
    (hd : d = amDiffSn a b - r) : amDiffSn a (snAt b r) = d := by
  rw [amDiffSn_eq] at hle hd ⊢
  rw [snAt]
  omega

theorem amDiffSn_sub {a b r : ℕ} (ha : a < 1024) (hb : b < 1024) (hr : r < 1024)
    (hle : amDiffSn b r ≤ amDiffSn a r) : amDiffSn a b = amDiffSn a r - amDiffSn b r := by
  rw [amDiffSn_eq] at hle ⊢
  rw [amDiffSn_eq, amDiffSn_eq]
  rw [amDiffSn_eq] at hle
  omega

namespace AmRxBlock

variable {p q : AmRxBlock} {cursor list passed rest reassembled : List AmRxBlock} {r j k h n : ℕ}

/-- A block of the PDU `i` behind `r` is marked. -/
def Marked (r : ℕ) (list : List AmRxBlock) (i : ℕ) : Prop :=
  ∃ p ∈ list, amDiffSn p.sn r = i ∧ p.allSegmentsReceived = true

theorem Marked.cons (hm : Marked r cursor n) : Marked r (p :: cursor) n := by
  obtain ⟨q, hq, hmarked⟩ := hm
  exact ⟨q, List.mem_cons_of_mem _ hq, hmarked⟩

theorem marked_of_eq (hr : r < 1024) (hj : j ≤ 512) (hp : p.allSegmentsReceived = true) (hsn : snAt r j = p.sn) :
    Marked r (p :: cursor) j :=
  ⟨p, List.mem_cons_self, by rw [← hsn, amDiffSn_snAt hr (by omega)], hp⟩

theorem lt_of_eq (hr : r < 1024) (hj : j ≤ 512) (hsn : snAt r j = p.sn) (hp : amDiffSn p.sn r < 512) : j < 512 := by
  rwa [← hsn, amDiffSn_snAt hr (by omega)] at hp

/-- VR(R) moves over marked PDUs only. -/
theorem updateVrR_spec (hr : r < 1024) (hj : j ≤ 512) (hcursor : ∀ p ∈ cursor, amDiffSn p.sn r < 512) :
    ∃ k, j ≤ k ∧ k ≤ 512 ∧ updateVrR (snAt r j) cursor = snAt r k ∧
      ∀ i, j ≤ i → i < k → Marked r cursor i := by
  induction cursor generalizing j with
  | nil => exact ⟨j, le_rfl, hj, rfl, fun i hi hlt ↦ absurd hlt (not_lt.mpr hi)⟩
  | cons p cursor ih =>
    obtain ⟨hp, hcursor⟩ := List.forall_mem_cons.mp hcursor
    rw [updateVrR]
    split_ifs with hstop hlast
    · exact ⟨j, le_rfl, hj, rfl, fun i hi hlt ↦ absurd hlt (not_lt.mpr hi)⟩
    · obtain ⟨hmarked, hsn⟩ := not_or.mp hstop
      rw [not_not] at hsn
      have hlt := lt_of_eq hr hj hsn hp
      have hnext := ih (show j + 1 ≤ 512 by omega) hcursor
      rw [mask_succ_snAt]
      obtain ⟨k, hjk, hk, heq, hpassed⟩ := hnext
      refine ⟨k, by omega, hk, heq, fun i hi hik ↦ ?_⟩
      rcases hi.eq_or_lt with rfl | hi
      · exact marked_of_eq hr hj (Bool.eq_true_of_not_eq_false hmarked) hsn
      · exact (hpassed i hi hik).cons
    · obtain ⟨k, hjk, hk, heq, hpassed⟩ := ih hj hcursor
      exact ⟨k, hjk, hk, heq, fun i hi hik ↦ (hpassed i hi hik).cons⟩

/-- So does VR(MS) on the arrival of a block. -/
theorem updateVrMs_spec (hr : r < 1024) (hj : j ≤ 512) (hcursor : ∀ p ∈ cursor, amDiffSn p.sn r < 512) :
    ∃ k, j ≤ k ∧ k ≤ 512 ∧ updateVrMs h (snAt r j) cursor = snAt r k ∧
      ∀ i, j ≤ i → i < k → Marked r cursor i := by
  induction cursor generalizing j with
  | nil => exact ⟨j, le_rfl, hj, rfl, fun i hi hlt ↦ absurd hlt (not_lt.mpr hi)⟩
  | cons p cursor ih =>
    obtain ⟨hp, hcursor⟩ := List.forall_mem_cons.mp hcursor
    rw [updateVrMs]
    by_cases hstop : p.allSegmentsReceived = false ∨ snAt r j ≠ p.sn
    · rw [if_pos hstop]
      exact ⟨j, le_rfl, hj, rfl, fun i hi hlt ↦ absurd hlt (not_lt.mpr hi)⟩
    rw [if_neg hstop]
    obtain ⟨hmarked, hsn⟩ := not_or.mp hstop
    rw [not_not] at hsn
    have hlt := lt_of_eq hr hj hsn hp
    have hmark : Marked r (p :: cursor) j := marked_of_eq hr hj (Bool.eq_true_of_not_eq_false hmarked) hsn
    rw [← hsn, amNextSn_snAt]
    split_ifs
    · obtain ⟨k, hjk, hk, heq, hpassed⟩ := ih (show j + 1 ≤ 512 by omega) hcursor
      refine ⟨k, by omega, hk, heq, fun i hi hik ↦ ?_⟩
      rcases hi.eq_or_lt with rfl | hi
      · exact hmark
      · exact (hpassed i hi hik).cons
    · refine ⟨j + 1, by omega, by omega, rfl, fun i hi hik ↦ ?_⟩
      obtain rfl : i = j := by omega
      exact hmark

/-- And on the expiry of t-Reordering. -/
theorem skipComplete_spec (hr : r < 1024) (hj : j ≤ 512) (hcursor : ∀ p ∈ cursor, amDiffSn p.sn r < 512) :
    ∃ k, j ≤ k ∧ k ≤ 512 ∧ AmRxEntity.skipComplete h (snAt r j) cursor = snAt r k ∧
      ∀ i, j ≤ i → i < k → Marked r cursor i := by
  induction cursor generalizing j with
  | nil => exact ⟨j, le_rfl, hj, rfl, fun i hi hlt ↦ absurd hlt (not_lt.mpr hi)⟩
  | cons p cursor ih =>
    obtain ⟨hp, hcursor⟩ := List.forall_mem_cons.mp hcursor
    rw [AmRxEntity.skipComplete]
    by_cases hgo : snAt r j ≠ h ∧ p.sn = snAt r j ∧ p.allSegmentsReceived = true
    · rw [if_pos hgo]
      have hlt := lt_of_eq hr hj hgo.2.1.symm hp
      split_ifs
      · rw [amNextSn_snAt]
        obtain ⟨k, hjk, hk, heq, hpassed⟩ := ih (show j + 1 ≤ 512 by omega) hcursor
        refine ⟨k, by omega, hk, heq, fun i hi hik ↦ ?_⟩
        rcases hi.eq_or_lt with rfl | hi
        · exact marked_of_eq hr hj hgo.2.2 hgo.2.1.symm
        · exact (hpassed i hi hik).cons
      · obtain ⟨k, hjk, hk, heq, hpassed⟩ := ih hj hcursor
        exact ⟨k, hjk, hk, heq, fun i hi hik ↦ (hpassed i hi hik).cons⟩
    · rw [if_neg hgo]
      exact ⟨j, le_rfl, hj, rfl, fun i hi hlt ↦ absurd hlt (not_lt.mpr hi)⟩

/-- VR(MS) gets over a row of marked PDUs, if each of them but the last one is one block. -/
theorem le_updateVrMs (hr : r < 1024) (hj : j ≤ 512) (hcursor : ∀ p ∈ cursor, p.sn < 1024 ∧ amDiffSn p.sn r < 512)
    (hsorted : cursor.Pairwise fun p q ↦ amDiffSn p.sn r ≤ amDiffSn q.sn r)
    (huniform : ∀ p ∈ cursor, ∀ q ∈ cursor, p.sn = q.sn → p.allSegmentsReceived = q.allSegmentsReceived)
    (hge : ∀ p ∈ cursor, j ≤ amDiffSn p.sn r) (hrow : ∀ i, j ≤ i → i < n → Marked r cursor i)
    (hsingle : ∀ i, j ≤ i → i + 1 < n → (cursor.filter fun p ↦ amDiffSn p.sn r = i).length ≤ 1)
    (hn : ∀ i, i < n → snAt r (i + 1) = h → n = i + 1) :
    ∃ k, n ≤ k ∧ j ≤ k ∧ k ≤ 512 ∧ updateVrMs h (snAt r j) cursor = snAt r k := by
  rcases le_or_gt n j with hnj | hjn
  · obtain ⟨k, hjk, hk, heq, -⟩ := updateVrMs_spec (h := h) hr hj fun p hp ↦ (hcursor p hp).2
    exact ⟨k, hnj.trans hjk, hjk, hk, heq⟩
  induction cursor generalizing j with
  | nil =>
    obtain ⟨p, hp, -⟩ := hrow j le_rfl hjn
    cases hp
  | cons p cursor ih =>
    obtain ⟨hp, hcursor⟩ := List.forall_mem_cons.mp hcursor
    obtain ⟨hpGe, hge⟩ := List.forall_mem_cons.mp hge
    obtain ⟨hfirst, hsorted⟩ := List.pairwise_cons.mp hsorted
    -- the first block is of the first PDU of the row
    obtain ⟨q, hq, hqj, hqMarked⟩ := hrow j le_rfl hjn
    have hpj : amDiffSn p.sn r = j := by
      rcases List.mem_cons.mp hq with rfl | hq
      · exact hqj
      · have hle := hfirst q hq
        omega
    have hsn : snAt r j = p.sn := by
      rw [← hpj]
      exact snAt_amDiffSn hr hp.1
    have hpMarked : p.allSegmentsReceived = true := by
      rcases List.mem_cons.mp hq with rfl | hqMem
      · exact hqMarked
      · have hqsn : q.sn = p.sn := by
          rw [← hsn, ← hqj]
          exact (snAt_amDiffSn hr (hcursor q hqMem).1).symm
        rw [← huniform q hq p List.mem_cons_self hqsn]
        exact hqMarked
    have hjlt := lt_of_eq hr hj hsn hp.2
    have hstop : ¬(p.allSegmentsReceived = false ∨ snAt r j ≠ p.sn) := by
      rw [hpMarked, hsn]
      simp
    rw [updateVrMs, if_neg hstop, ← hsn, amNextSn_snAt]
    by_cases hend : snAt r (j + 1) = h
    · rw [if_neg (not_not.mpr hend)]
      exact ⟨j + 1, (hn j hjn hend).le, by omega, by omega, rfl⟩
    rw [if_pos hend]
    rcases le_or_gt n (j + 1) with hnj | hjn
    · obtain ⟨k, hjk, hk, heq, -⟩ := updateVrMs_spec (h := h) hr (show j + 1 ≤ 512 by omega) fun p hp ↦ (hcursor p hp).2
      exact ⟨k, hnj.trans hjk, by omega, hk, heq⟩
    · have hone := hsingle j le_rfl hjn
      rw [List.filter_cons_of_pos (by simpa using hpj), List.length_cons] at hone
      have hnone : cursor.filter (fun p ↦ amDiffSn p.sn r = j) = [] := List.length_eq_zero_iff.mp (by omega)
      have hbehind (x : AmRxBlock) (hx : x ∈ cursor) : j + 1 ≤ amDiffSn x.sn r := by
        have hne := List.filter_eq_nil_iff.mp hnone x hx
        rw [decide_eq_true_iff] at hne
        have hle := hge x hx
        omega
      have hrow' (i : ℕ) (hi : j + 1 ≤ i) (hin : i < n) : Marked r cursor i := by
        obtain ⟨x, hx, hxi, hmarked⟩ := hrow i (by omega) hin
        rcases List.mem_cons.mp hx with rfl | hx
        · omega
        · exact ⟨x, hx, hxi, hmarked⟩
      have hsingle' (i : ℕ) (hi : j + 1 ≤ i) (hin : i + 1 < n) :
          (cursor.filter fun p ↦ amDiffSn p.sn r = i).length ≤ 1 := by
        have hlen := hsingle i (by omega) hin
        rwa [List.filter_cons_of_neg (by rw [decide_eq_true_iff]; omega)] at hlen
      have huniform' (x : AmRxBlock) (hx : x ∈ cursor) (y : AmRxBlock) (hy : y ∈ cursor) :=
        huniform x (List.mem_cons_of_mem _ hx) y (List.mem_cons_of_mem _ hy)
      obtain ⟨k, hnk, hjk, hk, heq⟩ :=
        ih (show j + 1 ≤ 512 by omega) hcursor hsorted huniform' hbehind hrow' hsingle' hjn
      exact ⟨k, hnk, by omega, hk, heq⟩

/-- What the selection of blocks for reassembly leaves alone. -/
def key (p : AmRxBlock) : AmPduInfo × Bool := (p.pduInfo, p.allSegmentsReceived)

theorem setPending_key (sn : ℕ) (a : ℤ) (list : List AmRxBlock) :
    (setPending sn a list).1.map key = list.map key := by
  induction list generalizing a with
  | nil => rfl
  | cons p list ih =>
    rw [setPending]
    split_ifs
    · exact congrArg (key p :: ·) (ih _)
    · exact congrArg (key p :: ·) (ih _)
    · rfl

theorem setPending_behind {vrR : ℕ} {list list' : List AmRxBlock} {reassemble : Bool} (P : AmRxBlock → Bool)
    (h : (match (list.span P).2 with
      | [] => some (list, true)
      | p :: _ =>
        if p.sn = vrR then
          if p.allSegmentsReceived then none
          else some ((list.span P).1 ++ (setPending vrR 0 (list.span P).2).1, true)
        else some (list, true)) = some (list', reassemble)) :
    list'.map key = list.map key ∧ reassemble = true := by
  have hsplit : (list.span P).1 ++ (list.span P).2 = list := by
    rw [List.span_eq_takeWhile_dropWhile]
    exact List.takeWhile_append_dropWhile
  generalize list.span P = span at *
  obtain ⟨passed, cursor⟩ := span
  cases cursor with
  | nil =>
    cases h
    exact ⟨rfl, rfl⟩
  | cons p cursor =>
    dsimp only at h hsplit
    split_ifs at h
    · cases h
      rw [← hsplit, List.map_append, List.map_append, setPending_key]
      exact ⟨rfl, rfl⟩
    · cases h
      exact ⟨rfl, rfl⟩

/-- Blocks are selected for reassembly, and always if VR(R) has left the head of the list. -/
theorem rxCheckVrReassemble_spec {vrR : ℕ} {list' : List AmRxBlock} {reassemble : Bool}
    (h : rxCheckVrReassemble vrR list = some (list', reassemble)) :
    list'.map key = list.map key ∧ ∀ head ∈ list.head?, head.sn ≠ vrR → reassemble = true := by
  cases list with
  | nil =>
    cases h
    exact ⟨rfl, fun p hp ↦ by cases hp⟩
  | cons head list =>
    rw [rxCheckVrReassemble] at h
    dsimp only at h
    by_cases hvr : head.sn ≠ vrR
    · rw [if_pos hvr] at h
      split_ifs at h with hfail hrf
      · obtain ⟨hkey, hreassemble⟩ := setPending_behind _ h
        exact ⟨hkey.trans (setPending_key _ _ _), fun _ _ _ ↦ hreassemble⟩
      · obtain ⟨hkey, hreassemble⟩ := setPending_behind _ h
        exact ⟨hkey, fun _ _ _ ↦ hreassemble⟩
    · rw [if_neg hvr] at h
      refine ⟨?_, fun p hp hne ↦ ?_⟩
      · split_ifs at h
        have heq := setPending_key vrR 0 (head :: list)
        rw [Option.some.inj h] at heq
        exact heq
      · cases hp
        exact absurd hne hvr

/-- The loop only takes blocks away. -/
theorem reassembleLoop_sublist (fuel : ℕ) (passed rest reassembled : List AmRxBlock) :
    ((reassembleLoop fuel passed rest reassembled).1.map key).Sublist ((passed ++ rest).map key) := by
  induction fuel generalizing passed rest reassembled with
  | zero => exact List.Sublist.refl _
  | succ fuel ih =>
    cases rest with
    | nil =>
      rw [List.append_nil]
      exact List.Sublist.refl _
    | cons p rest =>
      rw [reassembleLoop]
      dsimp only
      split_ifs
      · exact (List.tail_sublist _).map key
      · exact (ih _ _ _).trans ((List.tail_sublist _).map key)
      · exact List.Sublist.refl _
      all_goals
        have hkeep : (passed ++ { p with segmentReassembled := .reassembled } :: rest).map key =
            (passed ++ p :: rest).map key := by
          rw [List.map_append, List.map_append]
          rfl
        have hsub := fun reassembled ↦ ih (passed ++ [{ p with segmentReassembled := .reassembled }]) rest reassembled
        rw [List.append_assoc, List.singleton_append, hkeep] at hsub
      · exact hkeep ▸ List.Sublist.refl _
      · exact hkeep ▸ List.Sublist.refl _
      · exact hsub _
      · exact hsub _

theorem exists_of_key (h : (list.map key).Sublist (rest.map key)) (hp : p ∈ list) :
    ∃ q ∈ rest, q.pduInfo = p.pduInfo ∧ q.allSegmentsReceived = p.allSegmentsReceived := by
  obtain ⟨q, hq, heq⟩ := List.mem_map.mp (h.subset (List.mem_map_of_mem hp))
  exact ⟨q, hq, congrArg Prod.fst heq, congrArg Prod.snd heq⟩

theorem le_of_mem_of_key (h : (list.map key).Sublist (rest.map key)) (hall : ∀ q ∈ rest, n ≤ amDiffSn q.sn r)
    (hp : p ∈ list) : n ≤ amDiffSn p.sn r := by
  obtain ⟨q, hq, hinfo, -⟩ := exists_of_key h hp
  have hle := hall q hq
  rwa [sn, hinfo] at hle

/-- A row of marked PDUs at the head of the list is taken away. -/
theorem le_of_mem_reassembleLoop (hr : r < 1024) {fuel : ℕ} (hfuel : rest.length ≤ fuel)
    (hsn : ∀ p ∈ rest, p.sn < 1024) (hsorted : rest.Pairwise fun p q ↦ amDiffSn p.sn r ≤ amDiffSn q.sn r)
    (hmarked : ∀ p ∈ rest, amDiffSn p.sn r < n → p.allSegmentsReceived = true)
    (hrow : ∀ i, (∃ p ∈ rest, amDiffSn p.sn r ≤ i) → i < n → ∃ p ∈ rest, amDiffSn p.sn r = i)
    (hp : p ∈ (reassembleLoop fuel [] rest reassembled).1) : n ≤ amDiffSn p.sn r := by
  induction rest generalizing fuel reassembled with
  | nil => exact le_of_mem_of_key (reassembleLoop_sublist fuel [] [] reassembled) (fun q hq ↦ by cases hq) hp
  | cons x rest ih =>
    obtain ⟨hx, hsn⟩ := List.forall_mem_cons.mp hsn
    obtain ⟨hfirst, hsorted⟩ := List.pairwise_cons.mp hsorted
    rcases le_or_gt n (amDiffSn x.sn r) with hge | hlt
    · have hall : ∀ q ∈ x :: rest, n ≤ amDiffSn q.sn r :=
        List.forall_mem_cons.mpr ⟨hge, fun q hq ↦ hge.trans (hfirst q hq)⟩
      exact le_of_mem_of_key (reassembleLoop_sublist fuel [] (x :: rest) reassembled) hall hp
    cases fuel with
    | zero => cases hfuel
    | succ fuel =>
      have hxMarked := hmarked x List.mem_cons_self hlt
      have hrow' (i : ℕ) (hi : ∃ q ∈ rest, amDiffSn q.sn r ≤ i) (hin : i < n) :
          ∃ q ∈ rest, amDiffSn q.sn r = i := by
        obtain ⟨y, hy, hyi⟩ := hi
        obtain ⟨q, hq, hqi⟩ := hrow i ⟨y, List.mem_cons_of_mem _ hy, hyi⟩ hin
        rcases List.mem_cons.mp hq with rfl | hq
        · have hle := hfirst y hy
          exact ⟨y, hy, by omega⟩
        · exact ⟨q, hq, hqi⟩
      rw [reassembleLoop, if_pos hxMarked] at hp
      dsimp only [List.nil_append, List.tail_cons, List.head?_nil, Option.getD_none] at hp
      split_ifs at hp with hstop
      · cases rest with
        | nil => cases hp
        | cons q rest =>
          -- the next PDU is missing, so all that is left comes behind the row
          have hge : n ≤ amDiffSn q.sn r := by
            by_contra hqn
            have hle := hfirst q List.mem_cons_self
            have hnext : amDiffSn q.sn r ≤ amDiffSn x.sn r + 1 := by
              by_contra hgap
              obtain ⟨y, hy, hyi⟩ := hrow (amDiffSn x.sn r + 1) ⟨x, List.mem_cons_self, by omega⟩ (by omega)
              rcases List.mem_cons.mp hy with rfl | hy
              · omega
              · have hqy : amDiffSn q.sn r ≤ amDiffSn y.sn r := by
                  rcases List.mem_cons.mp hy with rfl | hy
                  · exact le_rfl
                  · exact (List.pairwise_cons.mp hsorted).1 y hy
                omega
            have hdiff := amDiffSn_sub (hsn q List.mem_cons_self) hx hr hle
            have hgo : x.goesOn q = true := decide_eq_true (.inl ⟨by omega, hxMarked⟩)
            simp [hgo] at hstop
          rcases List.mem_cons.mp hp with rfl | hp
          · exact hge
          · exact hge.trans ((List.pairwise_cons.mp hsorted).1 p hp)
      · exact ih (Nat.le_of_succ_le_succ hfuel) hsn hsorted
          (fun q hq hlt ↦ hmarked q (List.mem_cons_of_mem _ hq) hlt) hrow' hp

theorem rxListReassembleRlcSdus_key (list : List AmRxBlock) :
    ((rxListReassembleRlcSdus list).1.map key).Sublist (list.map key) := by
  unfold rxListReassembleRlcSdus
  cases list with
  | nil => exact List.Sublist.refl _
  | cons head list =>
    dsimp only
    split_ifs
    · have hsub : ((head :: list).dropWhile fun p ↦ p.segmentReassembled = .reassembled ∧ p.sn = head.sn).Sublist
          (head :: list) := List.dropWhile_sublist _
      generalize (head :: list).dropWhile (fun p ↦ p.segmentReassembled = .reassembled ∧ p.sn = head.sn) = cursor at *
      cases cursor with
      | nil => exact hsub.map key
      | cons p cursor =>
        dsimp only
        split_ifs
        · exact hsub.map key
        · exact (reassembleLoop_sublist _ _ _ _).trans (hsub.map key)
    · exact reassembleLoop_sublist _ _ _ _

/-- Reassembly takes the row of marked PDUs away, also if the first segments have been reassembled before. -/
theorem le_of_mem_reassembled (hr : r < 1024) (hsn : ∀ p ∈ list, p.sn < 1024)
    (hsorted : list.Pairwise fun p q ↦ amDiffSn p.sn r ≤ amDiffSn q.sn r)
    (hmarked : ∀ p ∈ list, amDiffSn p.sn r < n → p.allSegmentsReceived = true)
    (hrow : ∀ i, (∃ p ∈ list, amDiffSn p.sn r ≤ i) → i < n → ∃ p ∈ list, amDiffSn p.sn r = i)
    (hp : p ∈ (rxListReassembleRlcSdus list).1) : n ≤ amDiffSn p.sn r := by
  unfold rxListReassembleRlcSdus at hp
  cases list with
  | nil => cases hp
  | cons head list =>
    dsimp only at hp
    have hsplit := List.takeWhile_append_dropWhile (l := head :: list)
      (p := fun p ↦ p.segmentReassembled = .reassembled ∧ p.sn = head.sn)
    have hdropped (x : AmRxBlock) (hx : x ∈ (head :: list).takeWhile fun p ↦
        p.segmentReassembled = .reassembled ∧ p.sn = head.sn) : x.sn = head.sn := by
      have htake := List.mem_takeWhile_imp hx
      rw [decide_eq_true_iff] at htake
      exact htake.2
    generalize (head :: list).takeWhile (fun p ↦ p.segmentReassembled = .reassembled ∧ p.sn = head.sn) = dropped at *
    generalize (head :: list).dropWhile (fun p ↦ p.segmentReassembled = .reassembled ∧ p.sn = head.sn) = cursor at *
    have hsub : cursor.Sublist (head :: list) := by
      rw [← hsplit]
      exact List.sublist_append_right _ _
    have hlength : cursor.length ≤ ((head :: list).length + 1) * ((head :: list).length + 1) :=
      hsub.length_le.trans (Nat.le_trans (Nat.le_succ _) (Nat.le_mul_self _))
    have hhead (x : AmRxBlock) (hx : x ∈ head :: list) : amDiffSn head.sn r ≤ amDiffSn x.sn r := by
      rcases List.mem_cons.mp hx with rfl | hx
      · exact le_rfl
      · exact (List.pairwise_cons.mp hsorted).1 x hx
    -- of the dropped PDU the list holds no more, or the rest of it
    have hbehind (y : AmRxBlock) (hy : y ∈ head :: list) (hlt : amDiffSn head.sn r < amDiffSn y.sn r) : y ∈ cursor := by
      rw [← hsplit] at hy
      refine (List.mem_append.mp hy).resolve_left fun hdrop ↦ ?_
      rw [hdropped y hdrop] at hlt
      exact lt_irrefl _ hlt
    have hrow' (i : ℕ) (hi : ∃ q ∈ cursor, amDiffSn q.sn r ≤ i) (hin : i < n) :
        ∃ q ∈ cursor, amDiffSn q.sn r = i := by
      obtain ⟨x, hx, hxi⟩ := hi
      obtain ⟨y, hy, hyi⟩ := hrow i ⟨x, hsub.subset hx, hxi⟩ hin
      rcases (hhead y hy).eq_or_lt with heq | hlt
      · have hle := hhead x (hsub.subset hx)
        exact ⟨x, hx, by omega⟩
      · exact ⟨y, hbehind y hy hlt, hyi⟩
    split_ifs at hp with hfirst
    · cases cursor with
      | nil => cases hp
      | cons q cursor =>
        dsimp only at hp
        have hsortedCursor := hsorted.sublist hsub
        split_ifs at hp with hgap
        · have hge : n ≤ amDiffSn q.sn r := by
            by_contra hqn
            have hle := hhead q (hsub.subset List.mem_cons_self)
            have hdiff := amDiffSn_sub (hsn q (hsub.subset List.mem_cons_self)) (hsn head List.mem_cons_self) hr hle
            obtain ⟨y, hy, hyi⟩ := hrow (amDiffSn head.sn r + 1) ⟨head, List.mem_cons_self, by omega⟩ (by omega)
            have hyCursor := hbehind y hy (by omega)
            have hqy : amDiffSn q.sn r ≤ amDiffSn y.sn r := by
              rcases List.mem_cons.mp hyCursor with rfl | hy
              · exact le_rfl
              · exact (List.pairwise_cons.mp hsortedCursor).1 y hy
            omega
          rcases List.mem_cons.mp hp with rfl | hp
          · exact hge
          · exact hge.trans ((List.pairwise_cons.mp hsortedCursor).1 p hp)
        · exact le_of_mem_reassembleLoop hr hlength (fun q hq ↦ hsn q (hsub.subset hq)) hsortedCursor
            (fun q hq ↦ hmarked q (hsub.subset hq)) hrow' hp
    · exact le_of_mem_reassembleLoop hr (Nat.le_trans (Nat.le_succ _) (Nat.le_mul_self _)) hsn hsorted hmarked hrow hp

end AmRxBlock

end EdgeSlice.Rlc
