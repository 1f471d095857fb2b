import EdgeSlice.SuccessorList
import EdgeSlice.Outcome
import Mathlib.Logic.Equiv.Basic

namespace EdgeSlice.Mac

open Function

/-- The loop of `prev`: the place whose successor is `node`. -/
def prevFrom (next : ℕ → ℤ) (node : ℕ) : ℕ → ℤ → EdgeSlice.Outcome ℤ
  | fuel, j =>
    if j < 0 then .done (-1)
    else
      match fuel with
      | 0 => .running
      | fuel + 1 =>
        if next j.toNat = node then .done j else prevFrom next node fuel (next j.toNat)

def prev (L : SuccessorList) (fuel node : ℕ) : EdgeSlice.Outcome ℤ :=
  if (node : ℤ) = L.head then .done node else prevFrom L.next node fuel L.head

/-- The links of `swap_UEs`, with what `prev` gave for the two nodes. -/
def swapNodes (L : SuccessorList) (i j : ℕ) (prevI prevJ : ℤ) : SuccessorList :=
  let nextI := L.next i
  let nextJ := L.next j
  if nextI = j then
    let next := update (update L.next i nextJ) j i
    if (i : ℤ) = L.head then { head := j, next := next }
    else { L with next := update next prevI.toNat j }
  else if nextJ = i then
    let next := update (update L.next j nextI) i j
    if (j : ℤ) = L.head then { head := i, next := next }
    else { L with next := update next prevJ.toNat i }
  else
    let next := update (update L.next j nextI) i nextJ
    if (i : ℤ) = L.head then { head := j, next := update next prevJ.toNat i }
    else if (j : ℤ) = L.head then { head := i, next := update next prevI.toNat j }
    else { L with next := update (update next prevI.toNat j) prevJ.toNat i }

/-- The branch of `swap_UEs` for one direction. -/
def swapIn (L : SuccessorList) (fuel i j : ℕ) : EdgeSlice.Outcome SuccessorList :=
  (prev L fuel i).bind fun prevI ↦
    (prev L fuel j).bind fun prevJ ↦
      if prevI < 0 ∨ prevJ < 0 then .error else .done (swapNodes L i j prevI prevJ)

/-- `next` and `head`, `next_ul` and `head_ul` of `UE_list_t`. -/
structure UeChains where
  dl : SuccessorList
  ul : SuccessorList

def UeChains.direction (c : UeChains) (ulFlag : ℤ) : SuccessorList :=
  if ulFlag = 0 then c.dl else c.ul

def UeChains.other (c : UeChains) (ulFlag : ℤ) : SuccessorList :=
  if ulFlag = 0 then c.ul else c.dl

/-- `swap_UEs`, with `fuel` turns for the loops of `prev`. -/
def swapUes (c : UeChains) (fuel i j : ℕ) (ulFlag : ℤ) : EdgeSlice.Outcome UeChains :=
  if ulFlag = 0 then (swapIn c.dl fuel i j).bind fun L ↦ .done { c with dl := L }
  else (swapIn c.ul fuel i j).bind fun L ↦ .done { c with ul := L }

section Swap

open SuccessorList

variable {L : SuccessorList} {next : ℕ → ℤ} {a t : ℤ} {i j p fuel : ℕ}
  {front between back xs : List ℕ}

theorem prevFrom_eq (h : Way next a (front ++ p :: i :: back) t)
    (hnodup : (front ++ p :: i :: back).Nodup) (hfuel : front.length < fuel) :
    prevFrom next i fuel a = .done p := by
  induction front generalizing a fuel with
  | nil =>
    obtain ⟨fuel, rfl⟩ := Nat.exists_eq_add_one_of_ne_zero (Nat.ne_zero_of_lt hfuel)
    obtain ⟨rfl, hp, -⟩ := h
    rw [prevFrom, if_neg (by omega)]
    simp only [Int.toNat_natCast, hp, if_true]
  | cons x front ih =>
    obtain ⟨fuel, rfl⟩ := Nat.exists_eq_add_one_of_ne_zero (Nat.ne_zero_of_lt hfuel)
    obtain ⟨rfl, hway⟩ := h
    have hnodup' := (List.nodup_cons.mp hnodup).2
    have hne : next x ≠ i := by
      have hsplit : front ++ p :: i :: back = (front ++ [p]) ++ i :: back := by simp
      exact (hsplit ▸ hway : Way next (next x) (front ++ [p] ++ i :: back) t).start_ne
        (hsplit ▸ hnodup') (by simp)
    rw [prevFrom, if_neg (by omega)]
    simp only [Int.toNat_natCast, hne, if_false]
    exact ih hway hnodup' (by simpa using hfuel)

/-- The place before a node, and a node at the head itself. -/
theorem prev_eq (h : Way L.next L.head (front ++ i :: back) t)
    (hnodup : (front ++ i :: back).Nodup) (hfuel : front.length ≤ fuel) :
    prev L fuel i = .done (front.getLast?.getD i : ℕ) := by
  rw [prev]
  rcases List.eq_nil_or_concat front with rfl | ⟨front, p, rfl⟩
  · exact if_pos h.1.symm
  · rw [List.concat_eq_append] at *
    have hhead : (i : ℤ) ≠ L.head := (h.start_ne hnodup (by simp)).symm
    rw [if_neg hhead, List.getLast?_concat, Option.getD_some]
    rw [List.append_assoc] at h hnodup
    apply prevFrom_eq h hnodup
    rw [List.length_append, List.length_singleton] at hfuel
    omega

/-- Different parts of the list have different nodes. -/
structure Apart (front between back : List ℕ) (i j : ℕ) : Prop where
  ne : i ≠ j
  front : ∀ x ∈ front, x ≠ i ∧ x ≠ j ∧ x ∉ between ∧ x ∉ back
  between : ∀ x ∈ between, x ≠ i ∧ x ≠ j ∧ x ∉ back
  back : ∀ x ∈ back, x ≠ i ∧ x ≠ j

theorem apart (hnodup : (front ++ i :: (between ++ j :: back)).Nodup) :
    Apart front between back i j := by
  simp only [List.nodup_append, List.nodup_cons, List.mem_append, List.mem_cons, not_or] at hnodup
  obtain ⟨-, ⟨⟨hib, hij, hiback⟩, -, ⟨hjback, -⟩, hbetween⟩, hfront⟩ := hnodup
  refine ⟨hij, fun x hx ↦ ⟨?_, ?_, ?_, ?_⟩, fun x hx ↦ ⟨?_, ?_, ?_⟩, fun x hx ↦ ⟨?_, ?_⟩⟩
  · exact hfront x hx i (.inl rfl)
  · exact hfront x hx j (.inr (.inr (.inl rfl)))
  · exact fun hmem ↦ hfront x hx x (.inr (.inl hmem)) rfl
  · exact fun hmem ↦ hfront x hx x (.inr (.inr (.inr hmem))) rfl
  · exact fun heq ↦ hib (heq ▸ hx)
  · exact hbetween x hx j (.inl rfl)
  · exact fun hmem ↦ hbetween x hx x (.inr hmem) rfl
  · exact fun heq ↦ hiback (heq ▸ hx)
  · exact fun heq ↦ hjback (heq ▸ hx)

/-- The later node does not lead back to the earlier one. -/
theorem next_later_ne (h : Way next a (front ++ i :: (between ++ j :: back)) t)
    (hnodup : (front ++ i :: (between ++ j :: back)).Nodup) (ht : t < 0) : next j ≠ i := by
  obtain ⟨b, -, rfl, hrest⟩ := way_append.mp h
  obtain ⟨c, -, rfl, hend⟩ := way_append.mp hrest
  exact hend.start_ne_of_notMem (fun hi ↦ ((apart hnodup).back i hi).1 rfl) ht

theorem update_last {f : ℕ → ℤ} {p : ℕ} {v : ℤ} (hlast : xs.getLast? = some p) (x : ℕ) :
    update f p v x = if xs.getLast? = some x then v else f x := by
  rw [hlast, update_apply]
  simp only [Option.some.injEq, eq_comm]

/-- The two nodes are neighbours. -/
theorem swapNodes_adjacent (h : Way L.next L.head (front ++ i :: ([] ++ j :: back)) t)
    (hnodup : (front ++ i :: ([] ++ j :: back)).Nodup) (prevJ : ℤ) :
    Way (swapNodes L i j (front.getLast?.getD i : ℕ) prevJ).next
      (swapNodes L i j (front.getLast?.getD i : ℕ) prevJ).head
      (front ++ j :: ([] ++ i :: back)) t := by
  have hnext : L.next i = j := by
    obtain ⟨b, -, rfl, hb⟩ := way_append.mp h
    exact hb.1
  obtain ⟨hij, hfront, -, hback⟩ := apart hnodup
  rcases List.eq_nil_or_concat front with rfl | ⟨ws, p, hws⟩
  · have hhead : (i : ℤ) = L.head := h.1.symm
    have hswap : swapNodes L i j (([] : List ℕ).getLast?.getD i : ℕ) prevJ =
        ⟨j, update (update L.next i (L.next j)) j i⟩ := by
      rw [swapNodes, if_pos hnext, if_pos hhead]
    rw [hswap]
    show Way (update (update L.next i (L.next j)) j i) j _ t
    apply h.exchange hnodup rfl
    · exact List.forall_mem_nil _
    · exact List.forall_mem_nil _
    · intro x hx
      rw [update_of_ne (hback x hx).2, update_of_ne (hback x hx).1]
    · rw [update_of_ne hij, update_self]
    · rw [update_self, if_pos rfl]
  · have hne : front ≠ [] := by simp [hws]
    have hlast : front.getLast? = some p := by simp [hws]
    have hhead : (i : ℤ) ≠ L.head := (h.start_ne hnodup hne).symm
    have hswap : swapNodes L i j (front.getLast?.getD i : ℕ) prevJ =
        ⟨L.head, update (update (update L.next i (L.next j)) j i) p j⟩ := by
      rw [swapNodes, if_pos hnext, if_neg hhead, hlast]
      rfl
    have hp := hfront p (List.mem_of_getLast? hlast)
    rw [hswap]
    show Way (update (update (update L.next i (L.next j)) j i) p j) L.head _ t
    apply h.exchange hnodup (if_neg hne).symm
    · intro x hx
      rw [update_last hlast, update_of_ne (hfront x hx).2.1, update_of_ne (hfront x hx).1]
    · exact List.forall_mem_nil _
    · intro x hx
      have hxp : x ≠ p := fun heq ↦ hp.2.2.2 (heq ▸ hx)
      rw [update_of_ne hxp, update_of_ne (hback x hx).2, update_of_ne (hback x hx).1]
    · rw [update_of_ne hp.1.symm, update_of_ne hij, update_self]
    · rw [update_of_ne hp.2.1.symm, update_self, if_pos rfl]

/-- There are nodes between the two. -/
theorem swapNodes_apart (h : Way L.next L.head (front ++ i :: (between ++ j :: back)) t)
    (hnodup : (front ++ i :: (between ++ j :: back)).Nodup) (ht : t < 0) {q : ℕ}
    (hq : between.getLast? = some q) :
    Way (swapNodes L i j (front.getLast?.getD i : ℕ) q).next
      (swapNodes L i j (front.getLast?.getD i : ℕ) q).head
      (front ++ j :: (between ++ i :: back)) t := by
  obtain ⟨hij, hfront, hbetween, hback⟩ := apart hnodup
  have hqi := hbetween q (List.mem_of_getLast? hq)
  have hbetweenNe : between ≠ [] := by
    rintro rfl
    cases hq
  obtain ⟨b, -, rfl, hrest⟩ := way_append.mp h
  have hnodup' := (List.nodup_cons.mp (List.nodup_append.mp hnodup).2.1).2
  have hnextI : L.next i ≠ j := hrest.start_ne hnodup' hbetweenNe
  have hnextJ := next_later_ne h hnodup ht
  set start := update (update L.next j (L.next i)) i (L.next j) with hstart
  have hstartOther (x : ℕ) (hi : x ≠ i) (hj : x ≠ j) : start x = L.next x := by
    rw [hstart, update_of_ne hi, update_of_ne hj]
  have hstartI : start i = L.next j := update_self _ _ _
  have hstartJ : start j = L.next i := by
    rw [hstart, update_of_ne hij.symm, update_self]
  rcases List.eq_nil_or_concat front with rfl | ⟨ws, p, hws⟩
  · have hhead : (i : ℤ) = L.head := h.1.symm
    have hswap : swapNodes L i j (([] : List ℕ).getLast?.getD i : ℕ) q =
        ⟨j, update start q i⟩ := by
      rw [swapNodes, if_neg hnextI, if_neg hnextJ, if_pos hhead]
      rfl
    rw [hswap]
    show Way (update start q i) j _ t
    apply h.exchange hnodup rfl
    · exact List.forall_mem_nil _
    · intro x hx
      rw [update_last hq, hstartOther x (hbetween x hx).1 (hbetween x hx).2.1]
    · intro x hx
      have hxq : x ≠ q := fun heq ↦ hqi.2.2 (heq ▸ hx)
      rw [update_of_ne hxq, hstartOther x (hback x hx).1 (hback x hx).2]
    · rw [update_of_ne hqi.1.symm, hstartI]
    · rw [update_of_ne hqi.2.1.symm, hstartJ, if_neg hbetweenNe]
  · have hne : front ≠ [] := by simp [hws]
    have hlast : front.getLast? = some p := by simp [hws]
    have hheadI : (i : ℤ) ≠ L.head := (h.start_ne hnodup hne).symm
    have hheadJ : (j : ℤ) ≠ L.head := by
      have hsplit : front ++ i :: (between ++ j :: back) = (front ++ i :: between) ++ j :: back := by
        simp
      rw [hsplit] at h hnodup
      exact (h.start_ne hnodup (by simp)).symm
    have hswap : swapNodes L i j (front.getLast?.getD i : ℕ) q =
        ⟨L.head, update (update start p j) q i⟩ := by
      rw [swapNodes, if_neg hnextI, if_neg hnextJ, if_neg hheadI, if_neg hheadJ, hlast]
      rfl
    have hp := hfront p (List.mem_of_getLast? hlast)
    rw [hswap]
    show Way (update (update start p j) q i) L.head _ t
    apply h.exchange hnodup (if_neg hne).symm
    · intro x hx
      have hxq : x ≠ q := fun heq ↦ (hfront x hx).2.2.1 (heq ▸ List.mem_of_getLast? hq)
      rw [update_of_ne hxq, update_last hlast, hstartOther x (hfront x hx).1 (hfront x hx).2.1]
    · intro x hx
      have hxp : x ≠ p := fun heq ↦ hp.2.2.1 (heq ▸ hx)
      rw [update_last hq, update_of_ne hxp, hstartOther x (hbetween x hx).1 (hbetween x hx).2.1]
    · intro x hx
      have hxq : x ≠ q := fun heq ↦ hqi.2.2 (heq ▸ hx)
      have hxp : x ≠ p := fun heq ↦ hp.2.2.2 (heq ▸ hx)
      rw [update_of_ne hxq, update_of_ne hxp, hstartOther x (hback x hx).1 (hback x hx).2]
    · rw [update_of_ne hqi.1.symm, update_of_ne hp.1.symm, hstartI]
    · rw [update_of_ne hqi.2.1.symm, update_of_ne hp.2.1.symm, hstartJ, if_neg hbetweenNe]

theorem swapNodes_forward (h : Way L.next L.head (front ++ i :: (between ++ j :: back)) t)
    (hnodup : (front ++ i :: (between ++ j :: back)).Nodup) (ht : t < 0) :
    Way (swapNodes L i j (front.getLast?.getD i : ℕ) (between.getLast?.getD i : ℕ)).next
      (swapNodes L i j (front.getLast?.getD i : ℕ) (between.getLast?.getD i : ℕ)).head
      (front ++ j :: (between ++ i :: back)) t := by
  cases hlast : between.getLast? with
  | none =>
    obtain rfl := List.getLast?_eq_none_iff.mp hlast
    exact swapNodes_adjacent h hnodup _
  | some q => exact swapNodes_apart h hnodup ht hlast

/-- The order of the two nodes makes no difference. -/
theorem swapNodes_comm {prevI prevJ : ℤ} (hij : i ≠ j)
    (hcycle : ¬(L.next i = j ∧ L.next j = i))
    (hprev : (i : ℤ) ≠ L.head → (j : ℤ) ≠ L.head → prevI.toNat ≠ prevJ.toNat) :
    swapNodes L i j prevI prevJ = swapNodes L j i prevJ prevI := by
  have hheads : (i : ℤ) = L.head → (j : ℤ) ≠ L.head := by
    intro hi hj
    exact hij (by omega)
  by_cases hnextI : L.next i = j
  · have hnextJ : L.next j ≠ i := fun h ↦ hcycle ⟨hnextI, h⟩
    simp only [swapNodes, hnextI, hnextJ, if_true, if_false]
  · by_cases hnextJ : L.next j = i
    · simp only [swapNodes, hnextI, hnextJ, if_true, if_false]
    · simp only [swapNodes, hnextI, hnextJ, if_false]
      rw [update_comm hij]
      by_cases hi : (i : ℤ) = L.head
      · rw [if_pos hi, if_neg (hheads hi), if_pos hi]
      · by_cases hj : (j : ℤ) = L.head
        · rw [if_neg hi, if_pos hj, if_pos hj]
        · rw [if_neg hi, if_neg hj, if_neg hj, if_neg hi, update_comm (hprev hi hj)]

/-- Two nodes of a list, in one order or in the other. -/
theorem split_two (hi : i ∈ xs) (hj : j ∈ xs) (hij : i ≠ j) : ∃ front between back,
    xs = front ++ i :: (between ++ j :: back) ∨ xs = front ++ j :: (between ++ i :: back) := by
  obtain ⟨as, bs, rfl⟩ := List.append_of_mem hi
  rcases List.mem_append.mp hj with hj | hj
  · obtain ⟨front, between, rfl⟩ := List.append_of_mem hj
    exact ⟨front, between, bs, .inr (by simp)⟩
  · obtain ⟨between, back, rfl⟩ := List.append_of_mem (List.mem_of_ne_of_mem hij.symm hj)
    exact ⟨as, between, back, .inl rfl⟩

theorem map_swap (hnodup : (front ++ i :: (between ++ j :: back)).Nodup) :
    (front ++ i :: (between ++ j :: back)).map (Equiv.swap i j) =
      front ++ j :: (between ++ i :: back) := by
  obtain ⟨-, hfront, hbetween, hback⟩ := apart hnodup
  have hkeep (l : List ℕ) (hl : ∀ x ∈ l, x ≠ i ∧ x ≠ j) : l.map (Equiv.swap i j) = l := by
    conv_rhs => rw [← List.map_id l]
    exact List.map_congr_left fun x hx ↦ Equiv.swap_apply_of_ne_of_ne (hl x hx).1 (hl x hx).2
  simp only [List.map_append, List.map_cons, Equiv.swap_apply_left, Equiv.swap_apply_right]
  rw [hkeep front fun x hx ↦ ⟨(hfront x hx).1, (hfront x hx).2.1⟩,
    hkeep between fun x hx ↦ ⟨(hbetween x hx).1, (hbetween x hx).2.1⟩, hkeep back hback]

theorem getLast_before (front between : List ℕ) (i d : ℕ) :
    (front ++ i :: between).getLast?.getD d = between.getLast?.getD i := by
  rw [List.getLast?_append, List.getLast?_cons]
  rfl

theorem prev_both (h : Way L.next L.head (front ++ i :: (between ++ j :: back)) t)
    (hnodup : (front ++ i :: (between ++ j :: back)).Nodup)
    (hfuel : (front ++ i :: (between ++ j :: back)).length ≤ fuel) :
    prev L fuel i = .done (front.getLast?.getD i : ℕ) ∧
      prev L fuel j = .done (between.getLast?.getD i : ℕ) := by
  have hsplit : front ++ i :: (between ++ j :: back) = (front ++ i :: between) ++ j :: back := by
    simp
  constructor
  · apply prev_eq h hnodup
    rw [List.length_append] at hfuel
    omega
  · rw [← getLast_before front between i j]
    apply prev_eq (hsplit ▸ h) (hsplit ▸ hnodup)
    rw [hsplit, List.length_append] at hfuel
    omega

theorem swapIn_eq {p q : ℕ} (hi : prev L fuel i = .done p) (hj : prev L fuel j = .done q) :
    swapIn L fuel i j = .done (swapNodes L i j p q) := by
  rw [swapIn, hi, EdgeSlice.Outcome.bind, hj, EdgeSlice.Outcome.bind]
  exact if_neg (by omega)

/-- The nodes before two others are different when the first is not the head. -/
theorem lasts_ne (h : Way L.next L.head (front ++ i :: (between ++ j :: back)) t)
    (hnodup : (front ++ i :: (between ++ j :: back)).Nodup) (hhead : (i : ℤ) ≠ L.head) :
    between.getLast?.getD i ≠ front.getLast?.getD i := by
  obtain ⟨-, hfront, -, -⟩ := apart hnodup
  cases hp : front.getLast? with
  | none =>
    obtain rfl := List.getLast?_eq_none_iff.mp hp
    exact absurd h.1.symm hhead
  | some p =>
    have hpFront := hfront p (List.mem_of_getLast? hp)
    cases hq : between.getLast? with
    | none => exact hpFront.1.symm
    | some q =>
      intro heq
      obtain rfl : q = p := heq
      exact hpFront.2.2.1 (List.mem_of_getLast? hq)

/-- One direction: the list is the old one with the two nodes exchanged. -/
theorem swapIn_lists (h : L.Lists xs) (hi : i ∈ xs) (hj : j ∈ xs) (hij : i ≠ j)
    (hfuel : xs.length ≤ fuel) :
    ∃ L', swapIn L fuel i j = .done L' ∧ L'.Lists (xs.map (Equiv.swap i j)) := by
  have hnodup := h.nodup
  obtain ⟨t, ht, hway⟩ := h
  obtain ⟨front, between, back, rfl | rfl⟩ := split_two hi hj hij
  · obtain ⟨hprevI, hprevJ⟩ := prev_both hway hnodup hfuel
    refine ⟨_, swapIn_eq hprevI hprevJ, t, ht, ?_⟩
    rw [map_swap hnodup]
    exact swapNodes_forward hway hnodup ht
  · obtain ⟨hprevJ, hprevI⟩ := prev_both hway hnodup hfuel
    refine ⟨_, swapIn_eq hprevI hprevJ, t, ht, ?_⟩
    have hprev : (i : ℤ) ≠ L.head → (j : ℤ) ≠ L.head →
        ((between.getLast?.getD j : ℕ) : ℤ).toNat ≠ ((front.getLast?.getD j : ℕ) : ℤ).toNat :=
      fun _ hhead ↦ lasts_ne hway hnodup hhead
    rw [Equiv.swap_comm, map_swap hnodup,
      swapNodes_comm hij (fun hcycle ↦ next_later_ne hway hnodup ht hcycle.1) hprev]
    exact swapNodes_forward hway hnodup ht

/-- `swap_UEs` exchanges the two nodes in the list of its direction, and leaves the other list
as it is. -/
theorem swapUes_exchanges {c : UeChains} {ulFlag : ℤ} (h : (c.direction ulFlag).Lists xs)
    (hi : i ∈ xs) (hj : j ∈ xs) (hij : i ≠ j) (hfuel : xs.length ≤ fuel) :
    ∃ c', swapUes c fuel i j ulFlag = .done c' ∧
      (c'.direction ulFlag).Lists (xs.map (Equiv.swap i j)) ∧
      (xs.map (Equiv.swap i j)).Nodup ∧ c'.other ulFlag = c.other ulFlag := by
  obtain ⟨L', hswap, hlists⟩ := swapIn_lists h hi hj hij hfuel
  by_cases hflag : ulFlag = 0
  · simp only [UeChains.direction, hflag, if_true] at hswap
    refine ⟨{ c with dl := L' }, ?_, ?_, hlists.nodup, ?_⟩
    · rw [swapUes, if_pos hflag, hswap]
      rfl
    · rwa [UeChains.direction, if_pos hflag]
    · simp only [UeChains.other, hflag, if_true]
  · simp only [UeChains.direction, hflag, if_false] at hswap
    refine ⟨{ c with ul := L' }, ?_, ?_, hlists.nodup, ?_⟩
    · rw [swapUes, if_neg hflag, hswap]
      rfl
    · rwa [UeChains.direction, if_neg hflag]
    · simp only [UeChains.other, hflag, if_false]

/-- Four UEs in the order 2, 0, 3, 1, with a link left over in slot 5. -/
def fourUes : UeChains where
  dl := { head := 2, next := fun n ↦ if n = 2 then 0 else if n = 0 then 3 else if n = 3 then 1 else
    if n = 5 then 0 else -1 }
  ul := { head := -1, next := fun _ ↦ -1 }

theorem swapUes_exchanges_four :
    ∃ c', swapUes fourUes 4 1 2 0 = .done c' ∧ (c'.direction 0).Lists [1, 0, 3, 2] ∧
      [1, 0, 3, 2].Nodup ∧ c'.other 0 = fourUes.other 0 := by
  have hlists : (fourUes.direction 0).Lists [2, 0, 3, 1] :=
    ⟨-1, by decide, rfl, rfl, rfl, rfl, rfl⟩
  exact swapUes_exchanges hlists (by decide) (by decide) (by decide) (by decide)

end Swap

end EdgeSlice.Mac
