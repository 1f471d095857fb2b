import EdgeSlice.GuardedRun
import EdgeSlice.Rlc.AmReassembly
import EdgeSlice.Rlc.AmRxWindow
import EdgeSlice.Rlc.AmSegmentExact
import EdgeSlice.Rlc.UmLink

/-! The receiving side of AM, when every PDU arrives whole: any number of times, in any order, or never. -/

namespace EdgeSlice.Rlc

open Segmentation

namespace AmRxBlock

variable {p q : AmRxBlock} {list row rest reassembled : List AmRxBlock} {r i j fuel : ℕ}

/-- A PDU that has arrived in one piece. -/
structure Complete (p : AmRxBlock) : Prop where
  rf : p.pduInfo.rf = false
  marked : p.allSegmentsReceived = true

/-- The blocks are of the PDUs from `j` behind `r` on, one each, and those of `rest` are of PDUs behind a gap. -/
inductive Row (r : ℕ) (rest : List AmRxBlock) : ℕ → List AmRxBlock → Prop
  | gap {j : ℕ} (h : ∀ p ∈ rest, j < amDiffSn p.sn r) : Row r rest j []
  | next {p : AmRxBlock} {row : List AmRxBlock} {j : ℕ} (hp : amDiffSn p.sn r = j) (h : Row r rest (j + 1) row) :
      Row r rest j (p :: row)

theorem exists_row (hsorted : list.Pairwise fun p q ↦ amDiffSn p.sn r < amDiffSn q.sn r)
    (hge : ∀ p ∈ list, j ≤ amDiffSn p.sn r) : ∃ row rest, list = row ++ rest ∧ Row r rest j row := by
  induction list generalizing j with
  | nil => exact ⟨[], [], rfl, .gap (List.forall_mem_nil _)⟩
  | cons p list ih =>
    obtain ⟨hp, hge⟩ := List.forall_mem_cons.mp hge
    obtain ⟨hfirst, hsorted⟩ := List.pairwise_cons.mp hsorted
    rcases hp.eq_or_lt with heq | hlt
    · have hbehind (q : AmRxBlock) (hq : q ∈ list) : j + 1 ≤ amDiffSn q.sn r := by
        have hlt := hfirst q hq
        omega
      obtain ⟨row, rest, rfl, hrow⟩ := ih hsorted hbehind
      exact ⟨p :: row, rest, rfl, .next heq.symm hrow⟩
    · refine ⟨[], p :: list, rfl, .gap (List.forall_mem_cons.mpr ⟨hlt, fun q hq ↦ ?_⟩)⟩
      exact hlt.trans (hfirst q hq)

namespace Row

theorem rest_gt (h : Row r rest j row) (hp : p ∈ rest) : j + row.length < amDiffSn p.sn r := by
  induction h with
  | gap h => exact h p hp
  | @next q row j _ _ ih =>
    rw [List.length_cons]
    omega

theorem getElem? (h : Row r rest j row) (hi : row[i]? = some p) : amDiffSn p.sn r = j + i := by
  induction h generalizing i with
  | gap h => cases hi
  | @next q row j hq _ ih =>
    cases i with
    | zero =>
      cases hi
      exact hq
    | succ i =>
      have hi : row[i]? = some p := hi
      have heq := ih hi
      omega

theorem lt_of_mem (h : Row r rest j row) (hp : p ∈ row) : amDiffSn p.sn r < j + row.length := by
  obtain ⟨i, hi⟩ := List.mem_iff_getElem?.mp hp
  have hlt := (List.getElem?_eq_some_iff.mp hi).1
  rw [h.getElem? hi]
  omega

/-- The PDU behind the row is not there. -/
theorem ne_of_mem (h : Row r rest j row) (hr : r < 1024) (hlast : j + row.length < 1024) (hp : p ∈ row ++ rest) :
    p.sn ≠ snAt r (j + row.length) := by
  intro heq
  have hoffset : amDiffSn p.sn r = j + row.length := by
    rw [heq, amDiffSn_snAt hr hlast]
  rcases List.mem_append.mp hp with hp | hp
  · exact absurd hoffset (h.lt_of_mem hp).ne
  · exact absurd hoffset (h.rest_gt hp).ne'

theorem updateVrR (h : Row r rest j row) (hr : r < 1024) (hlast : j + row.length < 1024)
    (hsn : ∀ p ∈ row, p.sn < 1024) (hcomplete : ∀ p ∈ row, p.Complete) :
    updateVrR (snAt r j) (row ++ rest) = snAt r (j + row.length) := by
  induction h with
  | @gap j h =>
    cases rest with
    | nil => rfl
    | cons q rest =>
      have hne : snAt r j ≠ q.sn := by
        intro heq
        have hlt := h q List.mem_cons_self
        rw [← heq, amDiffSn_snAt hr (by simpa using hlast)] at hlt
        exact lt_irrefl _ hlt
      rw [List.nil_append, AmRxBlock.updateVrR, if_pos (Or.inr hne)]
      rfl
  | @next q row j hq _ ih =>
    obtain ⟨hqSn, hsn⟩ := List.forall_mem_cons.mp hsn
    obtain ⟨hqComplete, hcomplete⟩ := List.forall_mem_cons.mp hcomplete
    rw [List.length_cons] at hlast ⊢
    have heq : snAt r j = q.sn := by
      rw [← hq]
      exact snAt_amDiffSn hr hqSn
    have hnext := ih (by omega) hsn hcomplete
    rw [List.cons_append, AmRxBlock.updateVrR, if_neg, if_pos (Or.inl hqComplete.rf), mask_succ_snAt, hnext]
    · exact congrArg (snAt r) (by omega)
    · rw [hqComplete.marked, heq]
      simp

/-- All that is reassembled is the row. -/
theorem reassembleLoop (h : Row r rest j row) (hr : r < 1024) (hne : row ≠ []) (hsn : ∀ p ∈ row ++ rest, p.sn < 1024)
    (hcomplete : ∀ p ∈ row ++ rest, p.Complete) (hfuel : row.length ≤ fuel) :
    reassembleLoop fuel [] (row ++ rest) reassembled = (rest, reassembled ++ row) := by
  induction h generalizing fuel reassembled with
  | gap h => exact absurd rfl hne
  | @next p row j hp hrow ih =>
    obtain ⟨fuel, rfl⟩ := Nat.exists_eq_add_one.mpr (Nat.lt_of_lt_of_le (Nat.succ_pos _) hfuel)
    obtain ⟨hpSn, hsn⟩ := List.forall_mem_cons.mp hsn
    obtain ⟨hpComplete, hcomplete⟩ := List.forall_mem_cons.mp hcomplete
    rw [List.cons_append, AmRxBlock.reassembleLoop, if_pos hpComplete.marked]
    dsimp only [List.nil_append, List.tail_cons, List.head?_nil, Option.getD_none]
    have hbehind (q : AmRxBlock) (hq : q ∈ row ++ rest) (hle : j ≤ amDiffSn q.sn r) :
        amDiffSn q.sn p.sn = amDiffSn q.sn r - j := by
      rw [amDiffSn_sub (hsn q hq) hpSn hr (by rw [hp]; exact hle), hp]
    cases hrow with
    | gap h =>
      cases rest with
      | nil => exact if_pos rfl
      | cons q rest =>
        have hlt := h q List.mem_cons_self
        have hdiff := hbehind q List.mem_cons_self (by omega)
        have hstop : p.goesOn q = false := by
          have hsnNe : q.sn ≠ p.sn := by
            intro heq
            rw [heq, hp] at hlt
            omega
          rw [goesOn, decide_eq_false_iff_not]
          rintro (⟨hnear, -⟩ | ⟨hsame, -⟩)
          · omega
          · exact hsnNe hsame
        exact if_pos (decide_eq_true hstop)
    | @next q row _ hq hrow =>
      have hdiff := hbehind q List.mem_cons_self (by omega)
      have hgo : p.goesOn q = true := decide_eq_true (Or.inl ⟨by omega, hpComplete.marked⟩)
      rw [if_neg (by simp [hgo]), ih (List.cons_ne_nil _ _) hsn hcomplete (Nat.le_of_succ_le_succ hfuel),
        List.append_assoc]
      rfl

theorem rxListReassembleRlcSdus (h : Row r rest 0 row) (hr : r < 1024) (hne : row ≠ [])
    (hsn : ∀ p ∈ row ++ rest, p.sn < 1024) (hcomplete : ∀ p ∈ row ++ rest, p.Complete) :
    rxListReassembleRlcSdus (row ++ rest) = (rest, row) := by
  have hfuel : row.length ≤ ((row ++ rest).length + 1) * ((row ++ rest).length + 1) := by
    refine le_trans ?_ (Nat.le_mul_self _)
    rw [List.length_append]
    omega
  have hloop : AmRxBlock.reassembleLoop _ [] (row ++ rest) [] = (rest, [] ++ row) :=
    h.reassembleLoop hr hne hsn hcomplete hfuel
  obtain ⟨p, row, rfl⟩ := List.exists_cons_of_ne_nil hne
  have hrf := (hcomplete p List.mem_cons_self).rf
  rw [List.nil_append] at hloop
  rw [← hloop, List.cons_append, AmRxBlock.rxListReassembleRlcSdus, if_neg]
  rw [hrf]
  simp

theorem rxCheckVrReassemble (h : Row r rest 0 row) (hr : r < 1024) (hne : row ≠ []) (hlast : row.length < 1024)
    (hcomplete : ∀ p ∈ row ++ rest, p.Complete) :
    rxCheckVrReassemble (snAt r row.length) (row ++ rest) = some (row ++ rest, true) := by
  have hother (q : AmRxBlock) (hq : q ∈ row ++ rest) : q.sn ≠ snAt r row.length := by
    have hother := h.ne_of_mem hr (by rw [Nat.zero_add]; exact hlast) hq
    rwa [Nat.zero_add] at hother
  obtain ⟨p, row, rfl⟩ := List.exists_cons_of_ne_nil hne
  have hrf := (hcomplete p List.mem_cons_self).rf
  generalize hlist : p :: row ++ rest = list at hother ⊢
  rw [List.cons_append] at hlist
  subst hlist
  rw [AmRxBlock.rxCheckVrReassemble]
  simp only [hrf, Bool.false_eq_true, false_and, if_false, ne_eq, hother p List.mem_cons_self, not_false_eq_true,
    if_true]
  rw [List.span_eq_takeWhile_dropWhile]
  split
  · rfl
  · rename_i q cursor hcursor
    dsimp only at hcursor
    have hmem : q ∈ q :: cursor := List.mem_cons_self
    rw [← hcursor] at hmem
    rw [if_neg (hother q ((List.dropWhile_sublist _).subset hmem))]

end Row

/-- The PDUs `arrived` are the first `n` and those of the list, where `r` is the SN of the PDU `n`. -/
structure Holds (content : ℕ → AmPduInfo → Bytes → Prop) (arrived : List ℕ) (n r : ℕ) (list : List AmRxBlock) :
    Prop where
  block : ∀ p ∈ list, p.sn < 1024 ∧ p.Complete ∧ content (n + amDiffSn p.sn r) p.pduInfo p.data
  strict : list.Pairwise fun p q ↦ amDiffSn p.sn r < amDiffSn q.sn r
  mem_iff : ∀ k, k ∈ arrived ↔ k < n ∨ ∃ p ∈ list, k = n + amDiffSn p.sn r

namespace Holds

variable {content : ℕ → AmPduInfo → Bytes → Prop} {arrived : List ℕ} {before after : List AmRxBlock} {n k : ℕ}

theorem insert (h : Holds content arrived n r (before ++ after)) (hsn : p.sn < 1024) (hcomplete : p.Complete)
    (hcontent : content (n + amDiffSn p.sn r) p.pduInfo p.data)
    (hbefore : ∀ q ∈ before, amDiffSn q.sn r < amDiffSn p.sn r)
    (hafter : ∀ q ∈ after, amDiffSn p.sn r < amDiffSn q.sn r) :
    Holds content ((n + amDiffSn p.sn r) :: arrived) n r (before ++ p :: after) where
  block q hq := by
    rcases List.mem_append.mp hq with hq | hq
    · exact h.block q (List.mem_append_left _ hq)
    · rcases List.mem_cons.mp hq with rfl | hq
      · exact ⟨hsn, hcomplete, hcontent⟩
      · exact h.block q (List.mem_append_right _ hq)
  strict := OrderedRanges.pairwise_insert h.strict hbefore hafter
  mem_iff k := by
    rw [List.mem_cons, h.mem_iff]
    simp only [List.mem_append, List.mem_cons]
    constructor
    · rintro (rfl | hlt | ⟨q, hq, heq⟩)
      · exact Or.inr ⟨p, Or.inr (Or.inl rfl), rfl⟩
      · exact Or.inl hlt
      · exact Or.inr ⟨q, hq.imp_right Or.inr, heq⟩
    · rintro (hlt | ⟨q, hq | rfl | hq, heq⟩)
      · exact Or.inr (Or.inl hlt)
      · exact Or.inr (Or.inr ⟨q, Or.inl hq, heq⟩)
      · exact Or.inl heq
      · exact Or.inr (Or.inr ⟨q, Or.inr hq, heq⟩)

theorem imp {content' : ℕ → AmPduInfo → Bytes → Prop} (h : Holds content arrived n r list)
    (himp : ∀ k info data, content k info data → content' k info data) : Holds content' arrived n r list where
  block p hp := by
    obtain ⟨hsn, hcomplete, hcontent⟩ := h.block p hp
    exact ⟨hsn, hcomplete, himp _ _ _ hcontent⟩
  strict := h.strict
  mem_iff := h.mem_iff

/-- The PDUs of the row are in their places. -/
theorem content_row (h : Holds content arrived n r (row ++ rest)) (hrow : Row r rest 0 row) (hi : row[i]? = some p) :
    content (n + i) p.pduInfo p.data := by
  have hat := hrow.getElem? hi
  obtain ⟨-, -, hcontent⟩ := h.block p (List.mem_append_left _ (List.mem_of_getElem? hi))
  rw [hat, Nat.zero_add] at hcontent
  exact hcontent

/-- What is left when the row has been handed on. -/
theorem handOn (h : Holds content arrived n r (row ++ rest)) (hrow : Row r rest 0 row) (hr : r < 1024) :
    Holds content arrived (n + row.length) (snAt r row.length) rest ∧
      ∀ p ∈ rest, amDiffSn p.sn r = row.length + amDiffSn p.sn (snAt r row.length) ∧
        0 < amDiffSn p.sn (snAt r row.length) := by
  have hshift (p : AmRxBlock) (hp : p ∈ rest) :
      amDiffSn p.sn r = row.length + amDiffSn p.sn (snAt r row.length) ∧
        0 < amDiffSn p.sn (snAt r row.length) := by
    have hgap := hrow.rest_gt hp
    obtain ⟨hsn, -⟩ := h.block p (List.mem_append_right _ hp)
    have hdiff := amDiffSn_snAt_add (r := row.length) hsn hr (by omega) rfl
    omega
  refine ⟨⟨fun p hp ↦ ?_, ?_, fun k ↦ ?_⟩, hshift⟩
  · obtain ⟨hsn, hcomplete, hcontent⟩ := h.block p (List.mem_append_right _ hp)
    rw [(hshift p hp).1, ← Nat.add_assoc] at hcontent
    exact ⟨hsn, hcomplete, hcontent⟩
  · refine (List.pairwise_append.mp h.strict).2.1.imp_of_mem fun {p q} hp hq hlt ↦ ?_
    rw [(hshift p hp).1, (hshift q hq).1] at hlt
    exact Nat.lt_of_add_lt_add_left hlt
  · rw [h.mem_iff]
    constructor
    · rintro (hlt | ⟨p, hp, rfl⟩)
      · exact Or.inl (Nat.lt_add_right _ hlt)
      · rcases List.mem_append.mp hp with hp | hp
        · have hlt := hrow.lt_of_mem hp
          exact Or.inl (by omega)
        · exact Or.inr ⟨p, hp, by rw [(hshift p hp).1, Nat.add_assoc]⟩
    · rintro (hlt | ⟨p, hp, rfl⟩)
      · rcases Nat.lt_or_ge k n with hkn | hnk
        · exact Or.inl hkn
        · have hi : k - n < row.length := by omega
          have hat := hrow.getElem? (List.getElem?_eq_getElem hi)
          exact Or.inr ⟨row[k - n], List.mem_append_left _ (List.getElem_mem hi), by omega⟩
      · exact Or.inr ⟨p, List.mem_append_right _ hp, by rw [(hshift p hp).1, Nat.add_assoc]⟩

end Holds

end AmRxBlock

namespace AmRxEntity

open AmRxBlock

variable {e e' : AmRxEntity} {tb : AmRxBlock} {before after row rest list : List AmRxBlock} {arrived : List ℕ}
  {content : ℕ → AmPduInfo → Bytes → Prop} {k now : ℕ}

/-- The PDUs before the first one that has not arrived have been reassembled, and the others that have arrived are
stored. -/
structure InOrder (content : ℕ → AmPduInfo → Bytes → Prop) (arrived : List ℕ) (e : AmRxEntity) : Prop where
  kept : e.Kept
  vrR_eq : e.vrR = e.reassembled.length % 1024
  reassembled : ∀ k p, e.reassembled[k]? = some p → content k p.pduInfo p.data
  holds : Holds content arrived e.reassembled.length e.vrR e.receiverBuffer
  offset_pos : ∀ p ∈ e.receiverBuffer, 0 < e.offset p.sn
  highest : 0 < e.offset e.vrH → ∃ p ∈ e.receiverBuffer, e.offset p.sn + 1 = e.offset e.vrH

theorem inOrder_init (content : ℕ → AmPduInfo → Bytes → Prop) (d : ℕ) : (init d).InOrder content [] where
  kept := kept_init d
  vrR_eq := rfl
  reassembled k p hp := by cases hp
  holds := by
    refine ⟨List.forall_mem_nil _, List.Pairwise.nil, fun k ↦ iff_of_false List.not_mem_nil ?_⟩
    rintro (hlt | ⟨p, hp, -⟩)
    · exact Nat.not_lt_zero k hlt
    · exact absurd hp List.not_mem_nil
  offset_pos := List.forall_mem_nil _
  highest hpos := absurd (offset_init d) hpos.ne'

/-- What is handed on ends at the first PDU that has not arrived. -/
theorem InOrder.length_not_mem (h : e.InOrder content arrived) : e.reassembled.length ∉ arrived := by
  rw [h.holds.mem_iff]
  rintro (hlt | ⟨p, hp, heq⟩)
  · exact lt_irrefl _ hlt
  · have hpos : 0 < amDiffSn p.sn e.vrR := h.offset_pos p hp
    omega

theorem InOrder.mem_of_lt (h : e.InOrder content arrived) (hk : k < e.reassembled.length) : k ∈ arrived :=
  (h.holds.mem_iff k).mpr (Or.inl hk)

theorem InOrder.imp {content' : ℕ → AmPduInfo → Bytes → Prop} (h : e.InOrder content arrived)
    (himp : ∀ k info data, content k info data → content' k info data) : e.InOrder content' arrived where
  kept := h.kept
  vrR_eq := h.vrR_eq
  reassembled k p hp := himp _ _ _ (h.reassembled k p hp)
  holds := h.holds.imp himp
  offset_pos := h.offset_pos
  highest := h.highest

/-- What concerns neither the list nor VR(R) nor VR(H). -/
theorem InOrder.same (h : e.InOrder content arrived) (hkept : e'.Kept) (hbuffer : e'.receiverBuffer = e.receiverBuffer)
    (hreassembled : e'.reassembled = e.reassembled) (hvrR : e'.vrR = e.vrR) (hvrH : e'.vrH = e.vrH) :
    e'.InOrder content arrived := by
  have hoffset (sn : ℕ) : e'.offset sn = e.offset sn := congrArg (amDiffSn sn) hvrR
  refine ⟨hkept, ?_, ?_, ?_, ?_, ?_⟩
  · rw [hvrR, hreassembled]
    exact h.vrR_eq
  · rw [hreassembled]
    exact h.reassembled
  · rw [hreassembled, hvrR, hbuffer]
    exact h.holds
  · simp only [hbuffer, hoffset]
    exact h.offset_pos
  · simp only [hbuffer, hoffset, hvrH]
    exact h.highest

/-- Neither t-Reordering nor a STATUS request changes the list, VR(R) or VR(H). -/
theorem reported (now : ℕ) (tb : AmRxBlock) (e : AmRxEntity) :
    ((e.reorder now).triggerStatus tb .ok).receiverBuffer = e.receiverBuffer ∧
      ((e.reorder now).triggerStatus tb .ok).reassembled = e.reassembled ∧
      ((e.reorder now).triggerStatus tb .ok).vrR = e.vrR ∧ ((e.reorder now).triggerStatus tb .ok).vrH = e.vrH := by
  obtain ⟨a, b, hstatus⟩ := triggerStatus_eq tb .ok (e.reorder now)
  have hvr : (e.reorder now).vrR = e.vrR ∧ (e.reorder now).vrH = e.vrH := by
    rw [reorder]
    split_ifs <;> exact ⟨rfl, rfl⟩
  rw [hstatus]
  exact ⟨reorder_receiverBuffer now e, reorder_reassembled now e, hvr⟩

/-- What a whole PDU does that has been put into the list: the row at the head of the list is handed on. -/
theorem accept_row (hvrR : e.vrR < 1024) (hlist : list = before ++ tb :: after) (hrows : list = row ++ rest)
    (hrow : Row e.vrR rest 0 row) (hbefore : ∀ p ∈ before, 0 < e.offset p.sn ∧ e.offset p.sn < e.offset tb.sn)
    (hafter : ∀ p ∈ after, 0 < e.offset p.sn) (hsn : ∀ p ∈ list, p.sn < 1024) (hcomplete : ∀ p ∈ list, p.Complete)
    (hlast : row.length < 1024) (now : ℕ) :
    ∃ e', e.accept now tb after list = some e' ∧ e'.receiverBuffer = rest ∧
      e'.reassembled = e.reassembled ++ row ∧ e'.vrR = snAt e.vrR row.length ∧
      e'.vrH = if amDiffSn tb.sn e.vrR ≥ amDiffSn e.vrH e.vrR then amNextSn tb.sn else e.vrH := by
  have htb : tb ∈ list := hlist ▸ List.mem_append_right _ List.mem_cons_self
  have hzero : amDiffSn e.vrR e.vrR = 0 := by
    rw [amDiffSn_eq]
    omega
  rw [accept]
  dsimp only
  generalize (if amDiffSn tb.sn e.vrR ≥ amDiffSn e.vrH e.vrR then amNextSn tb.sn else e.vrH) = vrH
  generalize (if tb.sn = e.vrMs ∧ tb.allSegmentsReceived = true then updateVrMs vrH e.vrMs (tb :: after)
    else e.vrMs) = vrMs
  by_cases hfirst : tb.sn = e.vrR
  · have hnil : before = [] := by
      refine List.eq_nil_iff_forall_not_mem.mpr fun p hp ↦ ?_
      have hlt := (hbefore p hp).2
      rw [hfirst, offset, offset, hzero] at hlt
      exact Nat.not_lt_zero _ hlt
    rw [hnil, List.nil_append] at hlist
    have hne : row ≠ [] := by
      rintro rfl
      have htbRest : tb ∈ rest := by
        rw [hrows] at htb
        exact htb
      have hlt := hrow.rest_gt htbRest
      rw [hfirst, hzero] at hlt
      exact Nat.not_lt_zero _ hlt
    have hpassed : AmRxBlock.updateVrR e.vrR (tb :: after) = snAt e.vrR row.length := by
      have hnext := hrow.updateVrR hvrR (by rw [Nat.zero_add]; exact hlast)
        (fun p hp ↦ hsn p (hrows ▸ List.mem_append_left _ hp))
        (fun p hp ↦ hcomplete p (hrows ▸ List.mem_append_left _ hp))
      rw [snAt_zero hvrR, Nat.zero_add, ← hrows, hlist] at hnext
      exact hnext
    have hsn' : ∀ p ∈ row ++ rest, p.sn < 1024 := hrows ▸ hsn
    have hcomplete' : ∀ p ∈ row ++ rest, p.Complete := hrows ▸ hcomplete
    rw [if_pos hfirst, if_pos (hcomplete tb htb).marked, hpassed]
    dsimp only
    rw [hrows, hrow.rxCheckVrReassemble hvrR hne hlast hcomplete', Option.map_some]
    dsimp only
    rw [if_pos rfl, ← moveTo]
    obtain ⟨hbuffer, hreassembled, hvr⟩ := reported now tb (moveTo (row ++ rest) (snAt e.vrR row.length)
      ((snAt e.vrR row.length + rlcAmWindowSize) &&& 0x3FF) vrMs vrH e)
    refine ⟨_, rfl, ?_⟩
    rw [hbuffer, moveTo, hrow.rxListReassembleRlcSdus hvrR hne hsn' hcomplete']
    refine ⟨rfl, ?_, hvr⟩
    rw [← moveTo, hreassembled]
    rfl
  · have hpos (p : AmRxBlock) (hp : p ∈ list) : 0 < amDiffSn p.sn e.vrR := by
      rw [hlist] at hp
      rcases List.mem_append.mp hp with hp | hp
      · exact (hbefore p hp).1
      · rcases List.mem_cons.mp hp with rfl | hp
        · refine Nat.pos_of_ne_zero fun heq ↦ hfirst ?_
          exact amDiffSn_inj hvrR (hsn p htb) hvrR (heq.trans hzero.symm)
        · exact hafter p hp
    have hnil : row = [] := by
      cases hrow with
      | gap _ => rfl
      | next hp _ => exact absurd hp (hpos _ (hrows ▸ List.mem_cons_self)).ne'
    subst hnil
    rw [List.nil_append] at hrows
    obtain ⟨hbuffer, hreassembled, hvr, hvrH⟩ := reported now tb (moveTo list e.vrR e.vrMr vrMs vrH e)
    rw [if_neg hfirst]
    refine ⟨_, rfl, hbuffer.trans hrows, hreassembled.trans (List.append_nil _).symm, ?_, hvrH⟩
    exact hvr.trans (snAt_zero hvrR).symm

theorem row_length_le {n : ℕ} (h : Row e.vrR rest k row) (hk : k ≤ n) (hlt : ∀ p ∈ row, e.offset p.sn < n) :
    k + row.length ≤ n := by
  induction h with
  | gap h => exact hk
  | @next p row k hp _ ih =>
    obtain ⟨hpLt, hlt⟩ := List.forall_mem_cons.mp hlt
    rw [offset, hp] at hpLt
    have hle := ih hpLt hlt
    rw [List.length_cons]
    omega

/-- A PDU that has not arrived before is put in its place, and the row that it completes is handed on. -/
theorem InOrder.accept (h : e.InOrder content arrived) (hlist : e.receiverBuffer = before ++ after) (htb : tb.sn < 1024)
    (hin : e.offset tb.sn < 512) (hbefore : ∀ p ∈ before, e.offset p.sn < e.offset tb.sn)
    (hafter : ∀ p ∈ after, e.offset tb.sn < e.offset p.sn) (hcomplete : tb.Complete)
    (hcontent : content (e.reassembled.length + e.offset tb.sn) tb.pduInfo tb.data) (now : ℕ) :
    ∃ e', e.accept now tb after (before ++ tb :: after) = some e' ∧
      (e'.Kept → e'.InOrder content ((e.reassembled.length + e.offset tb.sn) :: arrived)) := by
  have hvrR := h.kept.vrR_lt
  have hold := h.holds
  rw [hlist] at hold
  have hnew := hold.insert htb hcomplete hcontent hbefore hafter
  obtain ⟨n, hvrH, hn, hleH, hltH, hcases⟩ := vrH_spec h.kept hin htb
  have hmem (p : AmRxBlock) (hp : p ∈ e.receiverBuffer) : p ∈ before ++ tb :: after := by
    rw [hlist] at hp
    exact List.Sublist.subset ((List.sublist_cons_self tb after).append_left before) hp
  have hbelow (p : AmRxBlock) (hp : p ∈ before ++ tb :: after) : e.offset p.sn < n := by
    rcases List.mem_append.mp hp with hp | hp
    · exact (hbefore p hp).trans hltH
    · rcases List.mem_cons.mp hp with rfl | hp
      · exact hltH
      · exact (h.kept.stored p (hlist ▸ List.mem_append_right _ hp)).trans_le hleH
  have hhighest : ∃ p ∈ before ++ tb :: after, e.offset p.sn + 1 = n := by
    rcases hcases with rfl | rfl
    · obtain ⟨p, hp, heq⟩ := h.highest (Nat.zero_lt_of_lt hltH)
      exact ⟨p, hmem p hp, heq⟩
    · exact ⟨tb, List.mem_append_right _ List.mem_cons_self, rfl⟩
  obtain ⟨row, rest, hrows, hrow⟩ := exists_row hnew.strict fun p _ ↦ Nat.zero_le _
  have hlength : 0 + row.length ≤ n :=
    row_length_le hrow (Nat.zero_le n) fun p hp ↦ hbelow p (hrows ▸ List.mem_append_left _ hp)
  rw [Nat.zero_add] at hlength
  obtain ⟨e', haccept, hbuffer, hreassembled, hvrR', hvrH'⟩ := accept_row hvrR rfl hrows hrow
    (fun p hp ↦ ⟨h.offset_pos p (hlist ▸ List.mem_append_left _ hp), hbefore p hp⟩)
    (fun p hp ↦ Nat.zero_lt_of_lt (hafter p hp)) (fun p hp ↦ (hnew.block p hp).1)
    (fun p hp ↦ (hnew.block p hp).2.1) (by omega) now
  rw [hrows] at hnew hhighest
  obtain ⟨hholds, hshift⟩ := hnew.handOn hrow hvrR
  have hcount : e'.reassembled.length = e.reassembled.length + row.length := by
    rw [hreassembled, List.length_append]
  refine ⟨e', haccept, fun hkept ↦ ⟨hkept, ?_, fun k p hp ↦ ?_, ?_, ?_, fun hpos ↦ ?_⟩⟩
  · rw [hvrR', hcount, snAt, h.vrR_eq]
    omega
  · rw [hreassembled] at hp
    rcases Nat.lt_or_ge k e.reassembled.length with hlt | hge
    · rw [List.getElem?_append_left hlt] at hp
      exact h.reassembled k p hp
    · rw [List.getElem?_append_right hge] at hp
      have hcontent := hnew.content_row hrow hp
      rw [Nat.add_sub_cancel' hge] at hcontent
      exact hcontent
  · rw [hcount, hvrR', hbuffer]
    exact hholds
  · rw [hbuffer]
    intro p hp
    rw [offset, hvrR']
    exact (hshift p hp).2
  · -- the PDU before VR(H) is still stored, or VR(R) has reached VR(H)
    have hoffsetH : e'.offset e'.vrH = n - row.length := by
      have hat : amDiffSn (snAt e.vrR n) e.vrR = n := amDiffSn_snAt hvrR (by omega)
      rw [offset, hvrR', hvrH', hvrH]
      exact amDiffSn_snAt_add (snAt_lt _ _) hvrR (by omega) (by omega)
    rw [hoffsetH] at hpos ⊢
    obtain ⟨p, hp, heq⟩ := hhighest
    rw [offset] at heq
    rcases List.mem_append.mp hp with hp | hp
    · have hlt := hrow.lt_of_mem hp
      omega
    · refine ⟨p, hbuffer ▸ hp, ?_⟩
      have hat := (hshift p hp).1
      rw [offset, hvrR']
      omega

/-- A whole PDU is a duplicate, or it is put between those before it and those behind it. -/
theorem InOrder.insert (h : e.InOrder content arrived) (htb : tb.sn < 1024) (hwhole : tb.pduInfo.rf = false) :
    (∃ p ∈ e.receiverBuffer, p.sn = tb.sn) ∧
        e.rxListCheckDuplicateInsertPdu tb = some (.refused .snDuplicate) ∨
      ∃ before after, e.receiverBuffer = before ++ after ∧ (∀ p ∈ before, e.offset p.sn < e.offset tb.sn) ∧
        (∀ p ∈ after, e.offset tb.sn < e.offset p.sn) ∧ e.rxListCheckDuplicateInsertPdu tb =
          some (.placed before { tb with segmentReassembled := .no } after) := by
  have hvrR := h.kept.vrR_lt
  obtain ⟨hlist, hbefore, hcursor⟩ := split_spec h.kept.blocks tb.sn
  have hsplit : e.split ({ tb with segmentReassembled := .no } : AmRxBlock).sn = e.split tb.sn := rfl
  rw [rxListCheckDuplicateInsertPdu]
  dsimp only
  by_cases hnil : e.receiverBuffer = []
  · refine Or.inr ⟨[], [], hnil, List.forall_mem_nil _, List.forall_mem_nil _, ?_⟩
    rw [if_pos hnil]
  · rw [if_neg hnil, if_neg (by rw [hwhole]; exact Bool.false_ne_true), rxListHandlePdu, hsplit]
    generalize e.split tb.sn = parts at hlist hbefore hcursor
    obtain ⟨before, cursor⟩ := parts
    dsimp only at hlist hbefore hcursor ⊢
    cases cursor with
    | nil =>
      rw [List.append_nil] at hlist
      refine Or.inr ⟨before, [], by rw [List.append_nil, hlist], hbefore, List.forall_mem_nil _, ?_⟩
      rw [link, if_neg]
      rw [hlist]
      exact fun h ↦ hnil h.1
    | cons first next =>
      have hfirst : first ∈ e.receiverBuffer := hlist ▸ List.mem_append_right _ List.mem_cons_self
      obtain ⟨hfirstSn, hfirstComplete, -⟩ := h.holds.block first hfirst
      dsimp only
      by_cases hsn : first.sn = tb.sn
      · have hsn' : ¬first.sn ≠ ({ tb with segmentReassembled := .no } : AmRxBlock).sn := not_not.mpr hsn
        rw [if_neg hsn', if_pos hfirstComplete.marked]
        exact Or.inl ⟨⟨first, hfirst, hsn⟩, rfl⟩
      · have hsn' : first.sn ≠ ({ tb with segmentReassembled := .no } : AmRxBlock).sn := hsn
        refine Or.inr ⟨before, first :: next, hlist.symm, hbefore, fun p hp ↦ ?_, ?_⟩
        · have hstrict := h.holds.strict
          rw [← hlist] at hstrict
          have hfirstLt : e.offset tb.sn < e.offset first.sn := by
            refine lt_of_le_of_ne (hcursor first List.mem_cons_self) fun heq ↦ hsn ?_
            exact amDiffSn_inj hvrR hfirstSn htb heq.symm
          rcases List.mem_cons.mp hp with rfl | hp
          · exact hfirstLt
          · exact hfirstLt.trans ((List.pairwise_cons.mp (List.pairwise_append.mp hstrict).2.1).1 p hp)
        · rw [if_pos hsn', link, if_neg]
          exact fun h ↦ List.cons_ne_nil _ _ h.2

/-- The PDU `k` arrives, neither too late nor too early for the SNs to tell: no assertion fails. -/
theorem InOrder.receive (h : e.InOrder content arrived) (hlow : e.reassembled.length ≤ k + 512)
    (hhigh : k < e.reassembled.length + 512) (hsn : tb.sn = k % 1024) (hwhole : tb.pduInfo.rf = false)
    (hcontent : content k tb.pduInfo tb.data) (now : ℕ) :
    ∃ e', receiveProcessDataPdu now tb e = some e' ∧ e'.InOrder content (k :: arrived) := by
  have htb : tb.sn < 1024 := hsn ▸ Nat.mod_lt _ (by decide)
  have hkept {e' : AmRxEntity} (hstep : receiveProcessDataPdu now tb e = some e') : e'.Kept := by
    refine h.kept.step (x := .data now tb) (fun _ _ heq ↦ ?_) hstep
    cases heq
    exact htb
  -- the status of a PDU that is not stored is all that changes
  have hrefused {status : AmRxPduStatus} (hk : k ∈ arrived)
      (hstep : receiveProcessDataPdu now tb e =
        some (e.triggerStatus { tb with allSegmentsReceived := false } status)) :
      ∃ e', receiveProcessDataPdu now tb e = some e' ∧ e'.InOrder content (k :: arrived) := by
    obtain ⟨a, b, hstatus⟩ := triggerStatus_eq { tb with allSegmentsReceived := false } status e
    refine ⟨_, hstep, ?_⟩
    have hsame := h.same (hkept hstep) (by rw [hstatus]) (by rw [hstatus]) (by rw [hstatus]) (by rw [hstatus])
    refine { hsame with holds := ⟨hsame.holds.block, hsame.holds.strict, fun j ↦ ?_⟩ }
    rw [List.mem_cons, ← hsame.holds.mem_iff, or_iff_right_of_imp]
    rintro rfl
    exact hk
  have hoffset : e.offset tb.sn = (k + 1024 - e.reassembled.length) % 1024 := by
    rw [offset, amDiffSn_eq, hsn, h.vrR_eq]
    omega
  rcases Nat.lt_or_ge k e.reassembled.length with hlt | hge
  · have hout : ¬amSnInWindow ({ tb with allSegmentsReceived := false } : AmRxBlock).sn e.vrR = true := by
      refine fun hin ↦ ?_
      have hlt : e.offset tb.sn < 512 := of_decide_eq_true hin
      omega
    refine @hrefused .snOutsideWindow (h.mem_of_lt hlt) ?_
    rw [receiveProcessDataPdu]
    dsimp only
    rw [if_neg hout]
  · have hin : e.offset tb.sn < 512 := by omega
    have hin' : amSnInWindow ({ tb with allSegmentsReceived := false } : AmRxBlock).sn e.vrR = true :=
      decide_eq_true hin
    have htb' : ({ tb with allSegmentsReceived := false } : AmRxBlock).sn < 1024 := htb
    have hk : k = e.reassembled.length + e.offset tb.sn := by omega
    rcases h.insert htb' hwhole with
      ⟨⟨p, hp, heq⟩, hinsert⟩ | ⟨before, after, hlist, hbefore, hafter, hinsert⟩
    · have hstored : k ∈ arrived := by
        refine (h.holds.mem_iff k).mpr (Or.inr ⟨p, hp, ?_⟩)
        have heq : p.sn = tb.sn := heq
        rw [heq]
        exact hk
      refine @hrefused .snDuplicate hstored ?_
      rw [receiveProcessDataPdu]
      dsimp only
      rw [if_pos hin', hinsert]
    · have hcheck : checkAllByteSegments before
          { tb with allSegmentsReceived := false, segmentReassembled := .no } after =
            (before, { tb with allSegmentsReceived := true, segmentReassembled := .no }, after) := if_pos hwhole
      have htb : ({ tb with allSegmentsReceived := true, segmentReassembled := .no } : AmRxBlock).sn < 1024 := htb
      rw [hk] at hcontent
      obtain ⟨e', haccept, hinOrder⟩ := h.accept hlist htb hin hbefore hafter ⟨hwhole, rfl⟩ hcontent now
      have hstep : receiveProcessDataPdu now tb e = some e' := by
        rw [receiveProcessDataPdu]
        dsimp only
        rw [if_pos hin', hinsert]
        dsimp only
        rw [hcheck]
        exact haccept
      refine ⟨e', hstep, ?_⟩
      rw [hk]
      exact hinOrder (hkept hstep)

/-- The expiry of t-Reordering moves nothing, and its assertion does not fail. -/
theorem InOrder.timer (h : e.InOrder content arrived) (now : ℕ) :
    ∃ e', checkTimerReordering now e = some e' ∧ e'.InOrder content arrived := by
  have hsome : ∃ e', checkTimerReordering now e = some e' := by
    rw [checkTimerReordering]
    by_cases hexpired : e.tReordering.running = true ∧ e.tReordering.expired now
    · obtain ⟨hvrX, hpos, hle⟩ := h.kept.running hexpired.1
      obtain ⟨p, hp, -⟩ := h.highest (hpos.trans_le hle)
      have hguard : ¬(e.vrX = rlcSnUndefined ∨ e.receiverBuffer = []) := by
        rintro (hundefined | hnil)
        · rw [hundefined] at hvrX
          exact absurd hvrX (by decide)
        · rw [hnil] at hp
          exact absurd hp List.not_mem_nil
      rw [if_pos hexpired, if_neg hguard]
      exact ⟨_, rfl⟩
    · rw [if_neg hexpired]
      exact ⟨e, rfl⟩
  obtain ⟨e', hstep⟩ := hsome
  refine ⟨e', hstep, ?_⟩
  have hkept : e'.Kept := h.kept.step (x := .timer now) (fun _ _ heq ↦ by cases heq) hstep
  rcases timer_cases h.kept hstep with rfl | ⟨-, k, t, a, b, -, -, -, -, -, rfl⟩
  · exact h
  · exact h.same hkept rfl rfl rfl rfl

end AmRxEntity

namespace AmSdus

variable {dataInd : List Bytes} {output src last data : Bytes} {segments : List Bytes} {j : ℕ}

/-- What is kept where `output` of an SDU is in construction. -/
def keeping (dataInd : List Bytes) (output : Bytes) : AmSdus := ⟨if output = [] then none else some output, dataInd⟩

theorem keeping_output (dataInd : List Bytes) (output : Bytes) :
    (keeping dataInd output).outputSduInConstruction.getD [] = output := by
  rw [keeping]
  split_ifs with hnil
  · exact hnil.symm
  · rfl

theorem keeping_reassembly (hsrc : src ≠ []) (hle : (output ++ src).length ≤ rlcSduMaxSize) :
    (keeping dataInd output).reassembly src = keeping dataInd (output ++ src) := by
  have hne : output ++ src ≠ [] := List.append_ne_nil_of_right_ne_nil _ hsrc
  rw [List.length_append] at hle
  rw [reassembly_of_le (by rw [written, keeping_output]; exact hle), keeping_output, keeping, keeping, if_neg hne]

theorem keeping_sendSdu (hne : output ≠ []) :
    (keeping dataInd output).sendSdu = some (keeping (dataInd ++ [output]) []) := by
  rw [keeping, if_neg hne]
  exact if_pos (List.length_pos_of_ne_nil hne)

/-- The loop over the length indicators hands up the SDUs that end with them. -/
theorem reassembleLis_segments (hsegments : ∀ segment ∈ segments, segment ≠ [])
    (hfit : ∀ message ∈ (messages output segments).1, message.length ≤ rlcSduMaxSize)
    (hdata : data.drop j = segments.flatten ++ last) :
    (keeping dataInd output).reassembleLis data j (segments.map List.length) =
      some (j + (segments.map List.length).sum,
        keeping (dataInd ++ (messages output segments).1) (messages output segments).2) := by
  induction segments generalizing dataInd output j with
  | nil =>
    rw [messages, List.append_nil]
    rfl
  | cons segment segments ih =>
    obtain ⟨hsegment, hsegments⟩ := List.forall_mem_cons.mp hsegments
    obtain ⟨hfirst, hfit⟩ := List.forall_mem_cons.mp hfit
    have hne : output ++ segment ≠ [] := List.append_ne_nil_of_right_ne_nil _ hsegment
    rw [List.flatten_cons, List.append_assoc] at hdata
    have htake : (data.drop j).take segment.length = segment := by
      rw [hdata, List.take_left]
    have hrest : data.drop (j + segment.length) = segments.flatten ++ last := by
      rw [← List.drop_drop, hdata, List.drop_left]
    rw [List.map_cons, reassembleLis, htake, keeping_reassembly hsegment hfirst, keeping_sendSdu hne, Option.bind_some,
      ih hsegments hfit hrest, List.sum_cons, messages, Nat.add_assoc, List.append_assoc]
    rfl

end AmSdus

namespace AmRxBlock

open AmSdus

variable {p : AmRxBlock} {f : Frame UInt8} {fiFirst : Bool} {output : Bytes} {sent : List SentFrame}
  {blocks : List AmRxBlock}

/-- The data of a block is a frame, and its header says so. -/
structure CarriesFrame (fiFirst : Bool) (f : Frame UInt8) (info : AmPduInfo) (data : Bytes) : Prop where
  fi : info.fi = UmEntity.framingInfo fiFirst f.ends
  e_iff : info.e = true ↔ f.complete ≠ []
  liList : info.liList = f.complete.map List.length
  payloadSize : info.payloadSize = f.payload.length
  hiddenSize : info.hiddenSize = f.last.length
  so : info.so = 0
  data_eq : data = f.payload

theorem CarriesFrame.wellFormed (h : CarriesFrame fiFirst f p.pduInfo p.data)
    (hfits : SentFrame.Fits ⟨fiFirst, f⟩ output rlcSduMaxSize) (hsize : f.payload.length < 2 ^ 15) :
    p.WellFormed := by
  have hlength := f.payload_length
  have hlast : 0 < f.last.length := hfits.last_pos
  refine ⟨?_, ?_, ?_, ?_, ?_, ?_, ?_, ?_⟩
  · rw [h.fi]
    exact UInt8.lt_iff_toNat_lt.mpr (UmEntity.framingInfo_lt fiFirst f.ends)
  · rw [h.e_iff, h.liList, ne_eq, ne_eq, List.map_eq_nil_iff]
  · rw [h.data_eq]
    exact List.ne_nil_of_length_pos (by omega)
  · rw [h.payloadSize, h.data_eq]
  · rw [h.data_eq]
    exact hsize
  · intro li hli
    rw [h.liList] at hli
    obtain ⟨segment, hsegment, rfl⟩ := List.mem_map.mp hli
    exact List.length_pos_of_ne_nil (hfits.segments segment hsegment).1
  · rw [h.liList, h.data_eq]
    omega
  · rw [h.hiddenSize, h.liList, h.data_eq]
    omega

theorem startsSdu_eq {ends : Bool} (h : p.pduInfo.fi = UmEntity.framingInfo fiFirst ends) :
    p.startsSdu = fiFirst ∧ p.endsSdu = ends := by
  rw [startsSdu, endsSdu, h]
  cases fiFirst <;> cases ends <;> exact ⟨rfl, rfl⟩

/-- The reassembly of a PDU hands up the SDUs that its frame completes. -/
theorem CarriesFrame.reassemblePdu (h : CarriesFrame fiFirst f p.pduInfo p.data)
    (hfits : SentFrame.Fits ⟨fiFirst, f⟩ output rlcSduMaxSize) (hsize : f.payload.length < 2 ^ 15)
    (dataInd : List Bytes) : p.reassemblePdu (keeping dataInd output) =
      some (keeping (dataInd ++ (reassemble output f).1) (reassemble output f).2) := by
  obtain ⟨hstarts, hends⟩ := startsSdu_eq h.fi
  have hstart : (if p.startsSdu then (keeping dataInd output).sendSdu else some (keeping dataInd output)) =
      some (keeping dataInd output) := by
    rw [hstarts]
    split_ifs with hfirst
    · have hnil : output = [] := hfits.first hfirst
      rw [hnil]
      rfl
    · rfl
  have hsum : p.pduInfo.liList.sum = f.complete.flatten.length := by
    rw [h.liList, List.length_flatten]
  have hdata : p.data.drop 0 = f.complete.flatten ++ f.last := h.data_eq
  have hloop : (keeping dataInd output).reassembleLis p.data 0 (f.complete.map List.length) = _ :=
    reassembleLis_segments (fun segment hsegment ↦ (hfits.segments segment hsegment).1) hfits.messages hdata
  rw [Nat.zero_add, ← h.liList] at hloop
  have hlast : p.data.drop p.pduInfo.liList.sum = f.last := by
    rw [hsum, h.data_eq, Frame.payload, List.drop_left]
  have hlt : p.pduInfo.liList.sum < p.data.length := by
    have hpos := hfits.last_pos
    rw [h.data_eq, f.payload_length, h.liList]
    exact Nat.lt_add_of_pos_right hpos
  have hne : f.last ≠ [] := List.ne_nil_of_length_pos hfits.last_pos
  rw [(h.wellFormed hfits hsize).reassemblePdu_eq hstart hloop, lastPart, if_pos hlt, hlast, hends,
    keeping_reassembly hne hfits.last, keeping_sendSdu (List.append_ne_nil_of_right_ne_nil _ hne), reassemble]
  cases f.ends with
  | true => simp
  | false => simp

/-- What is handed up for the first PDUs is what their frames assemble to. -/
theorem reassemble_blocks (hfit : UmEntity.AllFit rlcSduMaxSize sent)
    (hsizes : ∀ q ∈ sent, q.frame.payload.length < 2 ^ 15)
    (hblocks : ∀ (k : ℕ) (p : AmRxBlock), blocks[k]? = some p →
      ∃ q : SentFrame, sent[k]? = some q ∧ CarriesFrame q.fiFirst q.frame p.pduInfo p.data) :
    blocks.foldlM (fun r (p : AmRxBlock) ↦ p.reassemblePdu r) (keeping [] []) =
      some (keeping (assemble (UmEntity.framesTo sent blocks.length)).1
        (assemble (UmEntity.framesTo sent blocks.length)).2) := by
  induction blocks using List.reverseRecOn with
  | nil => rfl
  | append_singleton blocks p ih =>
    have hfirst (k : ℕ) (p' : AmRxBlock) (hp' : blocks[k]? = some p') :
        ∃ q, sent[k]? = some q ∧ CarriesFrame q.fiFirst q.frame p'.pduInfo p'.data := by
      refine hblocks k p' ?_
      rw [List.getElem?_append_left (List.getElem?_eq_some_iff.mp hp').1]
      exact hp'
    obtain ⟨q, hq, hcarries⟩ := hblocks blocks.length p List.getElem?_concat_length
    have hpdu := hcarries.reassemblePdu (hfit _ _ hq) (hsizes q (List.mem_of_getElem? hq))
      (assemble (UmEntity.framesTo sent blocks.length)).1
    rw [List.foldlM_append, ih hfirst, List.length_append, List.length_singleton, UmEntity.framesTo_succ hq,
      assemble_concat]
    simp only [Option.bind_eq_bind, Option.bind_some, List.foldlM_cons, hpdu, List.foldlM_nil]
    rfl

/-- The block of a received PDU, with what `rlc_am_get_data_pdu_infos` finds in it. -/
def ofPdu (pdu : Bytes) : Option AmRxBlock :=
  match AmPduInfo.getDataPduInfos pdu pdu.length with
  | .ok info => some ⟨⟨info, false⟩, .no, pdu.drop info.payload⟩
  | .error _ => none

theorem ofPdu_encodePdu {sn : ℕ} (poll fiFirst : Bool) {f : Frame UInt8} (hsn : sn < 1024)
    (hlis : ∀ segment ∈ f.complete, segment.length < 2048) (hmax : f.complete.length ≤ rlcAmMaxSduInPdu)
    (hsize : (AmPduInfo.encodePdu sn poll fiFirst f).length < 2 ^ 15) :
    ∃ tb, ofPdu (AmPduInfo.encodePdu sn poll fiFirst f) = some tb ∧ tb.sn = sn ∧ tb.pduInfo.rf = false ∧
      CarriesFrame fiFirst f tb.pduInfo tb.data := by
  obtain ⟨info, hinfo, hinfoSn, hfi, hliList, hpayloadSize, hrf, he, hpayload, hhidden, hso⟩ :=
    AmPduInfo.getDataPduInfos_encodePdu poll fiFirst [] hsn hlis hmax (by rw [List.append_nil]; exact hsize)
  rw [List.append_nil] at hinfo
  rw [List.length_nil, Nat.cast_zero, add_zero] at hpayloadSize hhidden
  have hdata : (AmPduInfo.encodePdu sn poll fiFirst f).drop info.payload = f.payload := by
    have hheader : (encodeLis (f.complete.map List.length)).length = lisSize f.complete.length := by
      rw [encodeLis_length, List.length_map]
    rw [hpayload, AmPduInfo.encodePdu, Nat.add_comm 2, List.drop_succ_cons, List.drop_succ_cons, ← hheader,
      List.drop_left]
  refine ⟨⟨⟨info, false⟩, .no, f.payload⟩, ?_, hinfoSn, hrf, hfi, he, hliList, hpayloadSize, hhidden, hso, rfl⟩
  rw [ofPdu, hinfo]
  dsimp only
  rw [hdata]

end AmRxBlock

instance (p : SentFrame) (output : Bytes) (max : ℕ) : Decidable (p.Fits output max) :=
  decidable_of_iff ((p.fiFirst = true → output = []) ∧ 0 < p.frame.last.length ∧
      (∀ segment ∈ p.frame.complete, segment ≠ [] ∧ segment.length < 2048) ∧
      p.frame.complete.length ≤ rlcUmSegmentNbMaxLiPerPdu ∧
      (∀ message ∈ (messages output p.frame.complete).1, message.length ≤ max) ∧
      ((messages output p.frame.complete).2 ++ p.frame.last).length ≤ max)
    ⟨fun ⟨hfirst, hpos, hsegments, hfew, hmessages, hlast⟩ ↦ ⟨hfirst, hpos, hsegments, hfew, hmessages, hlast⟩,
      fun h ↦ ⟨h.first, h.last_pos, h.segments, h.few, h.messages, h.last⟩⟩

/-- PDUs that are numbered one after the other, those of them that have arrived, and the entity that gets them. -/
structure AmStream where
  sent : List SentFrame
  arrived : List ℕ
  receiver : AmRxEntity

/-- A PDU may arrive more than once, with another poll, after later ones, or never. -/
inductive AmStreamEvent
  | send (p : SentFrame)
  | deliver (now k : ℕ) (poll : Bool)
  | checkTimer (now : ℕ)

namespace AmStream

open AmRxEntity

/-- `none` if an assertion of the receiver fails. -/
def handle : AmStreamEvent → AmStream → Option AmStream
  | .send p, l => some { l with sent := l.sent ++ [p] }
  | .deliver now k poll, l => do
    let p ← l.sent[k]?
    let tb ← AmRxBlock.ofPdu (AmPduInfo.encodePdu (k % 1024) poll p.fiFirst p.frame)
    let receiver ← receiveProcessDataPdu now tb l.receiver
    return { l with arrived := k :: l.arrived, receiver := receiver }
  | .checkTimer now, l => do
    let receiver ← checkTimerReordering now l.receiver
    return { l with receiver := receiver }

/-- A PDU goes on with what was sent before, and it arrives while the receiver can tell its number from its SN. -/
def Allowed (l : AmStream) : AmStreamEvent → Prop
  | .send p => p.Fits (assemble (l.sent.map (·.frame))).2 rlcSduMaxSize ∧
      2 + (lisSize p.frame.complete.length + p.frame.payload.length) < 2 ^ 15
  | .deliver _ k _ => k < l.sent.length ∧ l.receiver.reassembled.length ≤ k + rlcAmWindowSize ∧
      k < l.receiver.reassembled.length + rlcAmWindowSize
  | .checkTimer _ => True

instance (l : AmStream) : ∀ x, Decidable (l.Allowed x)
  | .send _ => inferInstanceAs (Decidable (_ ∧ _))
  | .deliver _ _ _ => inferInstanceAs (Decidable (_ ∧ _ ∧ _))
  | .checkTimer _ => inferInstanceAs (Decidable True)

def start (msDuration : ℕ) : AmStream := ⟨[], [], .init msDuration⟩

/-- What is handed up for the PDUs that the receiver has handed on for reassembly. -/
def dataInd (l : AmStream) : Option (List Bytes) :=
  (l.receiver.reassembled.foldlM (fun r p ↦ AmRxBlock.reassemblePdu p r) (⟨none, []⟩ : AmSdus)).map (·.dataInd)

variable {l l' : AmStream} {x : AmStreamEvent}

/-- The PDU `k` carries its frame. -/
def content (sent : List SentFrame) (k : ℕ) (info : AmPduInfo) (data : Bytes) : Prop :=
  ∃ p, sent[k]? = some p ∧ AmRxBlock.CarriesFrame p.fiFirst p.frame info data

/-- The receiver has what has arrived of the stream. -/
structure InStep (l : AmStream) : Prop where
  fit : UmEntity.AllFit rlcSduMaxSize l.sent
  sizes : ∀ p ∈ l.sent, 2 + (lisSize p.frame.complete.length + p.frame.payload.length) < 2 ^ 15
  inOrder : l.receiver.InOrder (content l.sent) l.arrived

theorem inStep_start (msDuration : ℕ) : (start msDuration).InStep where
  fit k p hp := by cases hp
  sizes := List.forall_mem_nil _
  inOrder := inOrder_init _ msDuration

/-- Each event that is allowed is handled, and keeps the receiver in step. -/
theorem InStep.handle (h : l.InStep) (hallowed : l.Allowed x) : ∃ l', handle x l = some l' ∧ l'.InStep := by
  cases x with
  | send p =>
    obtain ⟨hfits, hsize⟩ := hallowed
    refine ⟨_, rfl, h.fit.concat hfits, ?_, h.inOrder.imp fun k info data hcontent ↦ ?_⟩
    · exact List.forall_mem_append.mpr ⟨h.sizes, List.forall_mem_singleton.mpr hsize⟩
    · obtain ⟨q, hq, hcarries⟩ := hcontent
      refine ⟨q, ?_, hcarries⟩
      rw [List.getElem?_append_left (List.getElem?_eq_some_iff.mp hq).1]
      exact hq
  | deliver now k poll =>
    obtain ⟨hk, hlow, hhigh⟩ := hallowed
    have hsent : l.sent[k]? = some l.sent[k] := List.getElem?_eq_getElem hk
    have hfits := h.fit k _ hsent
    have hsize := h.sizes _ (List.getElem_mem hk)
    obtain ⟨tb, htb, hsn, hwhole, hcarries⟩ := AmRxBlock.ofPdu_encodePdu poll l.sent[k].fiFirst
      (Nat.mod_lt k (by decide)) (fun segment hsegment ↦ (hfits.segments segment hsegment).2) hfits.few
      (by rw [AmPduInfo.encodePdu_length]; exact hsize)
    obtain ⟨receiver, hreceive, hinOrder⟩ := h.inOrder.receive hlow hhigh hsn hwhole ⟨_, hsent, hcarries⟩ now
    refine ⟨{ l with arrived := k :: l.arrived, receiver := receiver }, ?_, h.fit, h.sizes, hinOrder⟩
    rw [AmStream.handle, hsent]
    simp only [Option.bind_eq_bind, Option.bind_some, htb, hreceive]
    rfl
  | checkTimer now =>
    obtain ⟨receiver, hcheck, hinOrder⟩ := h.inOrder.timer now
    refine ⟨{ l with receiver := receiver }, ?_, h.fit, h.sizes, hinOrder⟩
    rw [AmStream.handle, hcheck]
    rfl

theorem inStep_of_run {msDuration : ℕ} (h : GuardedRun handle Allowed (start msDuration) l) : l.InStep := by
  refine h.invariant (inStep_start msDuration) fun b x c hb hallowed hx ↦ ?_
  obtain ⟨c', hc', hinStep⟩ := hb.handle hallowed
  obtain rfl := Option.some.inj (hc'.symm.trans hx)
  exact hinStep

/-- Only what has been sent arrives. -/
theorem InStep.arrived_lt (h : l.InStep) {k : ℕ} (hk : k ∈ l.arrived) : k < l.sent.length := by
  have hcontent : ∃ info data, content l.sent k info data := by
    rcases (h.inOrder.holds.mem_iff k).mp hk with hlt | ⟨p, hp, rfl⟩
    · exact ⟨_, _, h.inOrder.reassembled k _ (List.getElem?_eq_getElem hlt)⟩
    · exact ⟨_, _, (h.inOrder.holds.block p hp).2.2⟩
  obtain ⟨info, data, p, hp, -⟩ := hcontent
  exact (List.getElem?_eq_some_iff.mp hp).1

/-- What has been handed up is what the PDUs before the first missing one carry. -/
theorem InStep.dataInd_eq (h : l.InStep) :
    l.dataInd = some (assemble (UmEntity.framesTo l.sent l.receiver.reassembled.length)).1 := by
  have hblocks := AmRxBlock.reassemble_blocks h.fit (fun p hp ↦ by
    have hsize := h.sizes p hp
    omega) h.inOrder.reassembled
  rw [dataInd]
  change (l.receiver.reassembled.foldlM (fun r p ↦ AmRxBlock.reassemblePdu p r) (AmSdus.keeping [] [])).map _ = _
  rw [hblocks]
  rfl

/-- However PDUs are lost, repeated or put out of order: no assertion fails, and the SDUs that are handed up are those
that end before the first PDU that has not arrived, byte for byte and in their order. -/
theorem dataInd_inOrder {msDuration : ℕ} (h : GuardedRun handle Allowed (start msDuration) l) :
    (∀ x, l.Allowed x → ∃ l', handle x l = some l') ∧
      ∃ n, (∀ k < n, k ∈ l.arrived) ∧ n ∉ l.arrived ∧
        l.dataInd = some (assemble ((l.sent.take n).map (·.frame))).1 := by
  have hstep := inStep_of_run h
  refine ⟨fun x hallowed ↦ ?_, l.receiver.reassembled.length, fun k hk ↦ hstep.inOrder.mem_of_lt hk,
    hstep.inOrder.length_not_mem, hstep.dataInd_eq⟩
  obtain ⟨l', hl', -⟩ := hstep.handle hallowed
  exact ⟨l', hl'⟩

/-- Two SDUs in three PDUs, of which the last arrives first and the second twice. -/
def shuffled : List AmStreamEvent :=
  [.send ⟨true, ⟨[], [1, 2], false⟩⟩, .send ⟨false, ⟨[[3]], [4], false⟩⟩, .send ⟨false, ⟨[], [5], true⟩⟩,
    .deliver 0 2 true, .deliver 1 1 false, .checkTimer 40, .deliver 41 1 true, .deliver 42 0 false]

theorem shuffled_inOrder :
    ∃ l, shuffled.foldlM (fun (l : AmStream) x ↦ if l.Allowed x then handle x l else none) (start 35) = some l ∧
      (∀ x, l.Allowed x → ∃ l', handle x l = some l') ∧
      ∃ n, (∀ k < n, k ∈ l.arrived) ∧ n ∉ l.arrived ∧
        l.dataInd = some (assemble ((l.sent.take n).map (·.frame))).1 := by
  have hsome : (shuffled.foldlM (fun (l : AmStream) x ↦ if l.Allowed x then handle x l else none)
      (start 35)).isSome = true := by
    decide +kernel
  obtain ⟨l, hl⟩ := Option.isSome_iff_exists.mp hsome
  exact ⟨l, hl, dataInd_inOrder (.of_checked hl)⟩

end AmStream

end EdgeSlice.Rlc
