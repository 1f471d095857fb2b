import Mathlib.Data.List.Basic
import Mathlib.Data.Nat.Basic
import Mathlib.Order.Basic

namespace EdgeSlice.Placement

/-- A request for a block of cells: its size, and where it may start in the order
of preference. -/
structure Request where
  size : ℕ
  starts : List ℕ

/-- The cells of the block of `size` cells at `p`. -/
def InBlock (p size q : ℕ) : Prop := p ≤ q ∧ q < p + size

def isFree (occupied : ℕ → Bool) (p size : ℕ) : Bool :=
  (List.range size).all (fun i ↦ !occupied (p + i))

def occupy (occupied : ℕ → Bool) (p size : ℕ) : ℕ → Bool :=
  fun q ↦ (decide (p ≤ q) && decide (q < p + size)) || occupied q

def placeOne (occupied : ℕ → Bool) (r : Request) : Option ℕ :=
  r.starts.find? (fun p ↦ isFree occupied p r.size)

/-- First fit for a list of requests: the starts it chooses. -/
def placeAll (capacity : ℕ) : (ℕ → Bool) → ℕ → List Request → Option (List ℕ)
  | _, _, [] => some []
  | occupied, used, r :: rs =>
    if capacity < used + r.size then none
    else
      match placeOne occupied r with
      | none => none
      | some p => (placeAll capacity (occupy occupied p r.size) (used + r.size) rs).map (p :: ·)

variable {occupied occupied' : ℕ → Bool} {p size q : ℕ}

theorem isFree_iff : isFree occupied p size = true ↔ ∀ q, InBlock p size q → occupied q = false := by
  simp only [isFree, List.all_eq_true, List.mem_range, Bool.not_eq_true']
  constructor
  · intro h q ⟨hlow, hhigh⟩
    have hq := h (q - p) (by omega)
    rwa [Nat.add_sub_cancel' hlow] at hq
  · intro h i hi
    exact h (p + i) ⟨Nat.le_add_right p i, by omega⟩

theorem occupy_eq_true : occupy occupied p size q = true ↔ InBlock p size q ∨ occupied q = true := by
  simp [occupy, InBlock]

theorem occupy_eq_false :
    occupy occupied p size q = false ↔ ¬ InBlock p size q ∧ occupied q = false := by
  rw [← Bool.not_eq_true, occupy_eq_true, not_or, Bool.not_eq_true]

theorem placeOne_some {r : Request} (h : placeOne occupied r = some p) :
    p ∈ r.starts ∧ ∀ q, InBlock p r.size q → occupied q = false :=
  ⟨List.mem_of_find?_eq_some h, isFree_iff.mp (by simpa using List.find?_some h)⟩

theorem placeAll_cons {capacity used : ℕ} {r : Request} {rs : List Request} {ps : List ℕ} :
    placeAll capacity occupied used (r :: rs) = some ps ↔
      used + r.size ≤ capacity ∧ ∃ p, placeOne occupied r = some p ∧
        ∃ rest, placeAll capacity (occupy occupied p r.size) (used + r.size) rs = some rest ∧
          ps = p :: rest := by
  rw [placeAll]
  split
  · next h => simp [not_le.mpr h]
  · next h =>
    cases placeOne occupied r with
    | none => simp
    | some p =>
      simp only [Option.map_eq_some_iff, not_lt.mp h, Option.some.injEq, exists_eq_left', true_and]
      exact exists_congr (fun rest ↦ and_congr_right (fun _ ↦ eq_comm))

/-- The blocks of a placement, as start and size. -/
def blocks (rs : List Request) (ps : List ℕ) : List (ℕ × ℕ) :=
  List.zipWith (fun r p ↦ (p, r.size)) rs ps

/-- Every request gets one of its starts, the blocks are free and they do not meet. -/
theorem placeAll_sound {capacity used : ℕ} {rs : List Request} {ps : List ℕ}
    (h : placeAll capacity occupied used rs = some ps) :
    List.Forall₂ (fun r p ↦ p ∈ r.starts) rs ps ∧
      (∀ b ∈ blocks rs ps, ∀ q, InBlock b.1 b.2 q → occupied q = false) ∧
      (blocks rs ps).Pairwise (fun a b ↦ ∀ q, ¬ (InBlock a.1 a.2 q ∧ InBlock b.1 b.2 q)) := by
  induction rs generalizing occupied used ps with
  | nil =>
    rw [placeAll, Option.some.injEq] at h
    subst h
    exact ⟨.nil, by simp [blocks], .nil⟩
  | cons r rs ih =>
    obtain ⟨-, p, hp, rest, hrest, rfl⟩ := placeAll_cons.mp h
    obtain ⟨hstart, hfree⟩ := placeOne_some hp
    obtain ⟨hstarts, hblocks, hapart⟩ := ih hrest
    have hlater : ∀ b ∈ blocks rs rest, ∀ q, InBlock b.1 b.2 q →
        ¬ InBlock p r.size q ∧ occupied q = false := fun b hb q hq ↦
      occupy_eq_false.mp (hblocks b hb q hq)
    refine ⟨.cons hstart hstarts, ?_, ?_⟩
    · intro b hb
      rcases List.mem_cons.mp hb with rfl | hb
      · exact hfree
      · exact fun q hq ↦ (hlater b hb q hq).2
    · refine List.pairwise_cons.mpr ⟨fun b hb q hq ↦ ?_, hapart⟩
      exact (hlater b hb q hq.2).1 hq.1

theorem size_le_of_placeAll {capacity used : ℕ} {rs : List Request} {ps : List ℕ}
    (h : placeAll capacity occupied used rs = some ps) : ∀ r ∈ rs, r.size ≤ capacity := by
  induction rs generalizing occupied used ps with
  | nil => exact List.forall_mem_nil _
  | cons r rs ih =>
    obtain ⟨hcap, p, -, rest, hrest, -⟩ := placeAll_cons.mp h
    exact List.forall_mem_cons.mpr ⟨(Nat.le_add_left r.size used).trans hcap, ih hrest⟩

section Removal

/-- The cells that only `occupied` takes form whole blocks of `size` cells. -/
def Saturated (size : ℕ) (occupied occupied' : ℕ → Bool) : Prop :=
  ∀ q q', q / size = q' / size → occupied q = true → occupied' q = false →
    occupied q' = true ∧ occupied' q' = false

/-- Blocks start at multiples of their size. -/
def Request.Aligned (r : Request) : Prop := 0 < r.size ∧ ∀ p ∈ r.starts, r.size ∣ p

theorem inBlock_iff (hsize : 0 < size) (hp : size ∣ p) : InBlock p size q ↔ q / size = p / size := by
  obtain ⟨k, rfl⟩ := hp
  rw [Nat.mul_div_cancel_left k hsize, InBlock, Nat.div_eq_iff hsize]
  constructor
  · intro ⟨hlow, hhigh⟩
    rw [Nat.mul_comm] at hlow hhigh
    omega
  · intro ⟨hlow, hhigh⟩
    rw [Nat.mul_comm]
    omega

theorem div_eq_of_dvd {small : ℕ} (h : small ∣ size) {q q' : ℕ} (hq : q / small = q' / small) :
    q / size = q' / size := by
  obtain ⟨k, rfl⟩ := h
  rw [← Nat.div_div_eq_div_mul, ← Nat.div_div_eq_div_mul, hq]

theorem inBlock_congr {small : ℕ} (hsize : 0 < size) (hp : size ∣ p) (h : small ∣ size) {q q' : ℕ}
    (hq : q / small = q' / small) : InBlock p size q ↔ InBlock p size q' := by
  rw [inBlock_iff hsize hp, inBlock_iff hsize hp, div_eq_of_dvd h hq]

theorem saturated_refl (occupied : ℕ → Bool) (size : ℕ) : Saturated size occupied occupied := by
  intro q q' _ h h'
  rw [h] at h'
  cases h'

theorem find?_eq_of_imp {f g : ℕ → Bool} {l : List ℕ} (himp : ∀ p, f p = true → g p = true) {p p' : ℕ}
    (hf : l.find? f = some p) (hg : l.find? g = some p') (hp' : f p' = true) : p' = p := by
  induction l with
  | nil => cases hf
  | cons a l ih =>
    cases ha : f a with
    | true =>
      rw [List.find?_cons_of_pos ha] at hf
      rw [List.find?_cons_of_pos (himp a ha)] at hg
      exact (Option.some.inj hg).symm.trans (Option.some.inj hf)
    | false =>
      rw [List.find?_cons_of_neg (by simp [ha])] at hf
      cases hga : g a with
      | true =>
        rw [List.find?_cons_of_pos hga, Option.some.injEq] at hg
        rw [hg, hp'] at ha
        cases ha
      | false =>
        rw [List.find?_cons_of_neg (by simp [hga])] at hg
        exact ih hf hg

theorem isFree_mono (hsub : ∀ q, occupied' q = true → occupied q = true)
    (h : isFree occupied p size = true) : isFree occupied' p size = true := by
  rw [isFree_iff] at h ⊢
  intro q hq
  rw [← Bool.not_eq_true]
  intro hocc
  exact Bool.noConfusion ((hsub q hocc).symm.trans (h q hq))

/-- With fewer cells taken, first fit keeps its choice or takes a block of the cells
that are free now. -/
theorem placeOne_mono {r : Request} (hr : r.Aligned)
    (hsub : ∀ q, occupied' q = true → occupied q = true)
    (hsat : Saturated r.size occupied occupied') (h : placeOne occupied r = some p) :
    ∃ p', placeOne occupied' r = some p' ∧
      (p' = p ∨ ∀ q, InBlock p' r.size q → occupied q = true ∧ occupied' q = false) := by
  have hp : isFree occupied' p r.size = true := isFree_mono hsub (by simpa using List.find?_some h)
  have hexists : ∃ q ∈ r.starts, isFree occupied' q r.size = true :=
    ⟨p, List.mem_of_find?_eq_some h, hp⟩
  obtain ⟨p', hp'⟩ := Option.isSome_iff_exists.mp (List.find?_isSome.mpr hexists)
  refine ⟨p', hp', ?_⟩
  obtain ⟨hstart, hfree⟩ := placeOne_some hp'
  cases hocc : isFree occupied p' r.size with
  | true => exact .inl (find?_eq_of_imp (fun p ↦ isFree_mono hsub) h hp' hocc)
  | false =>
    right
    rw [← Bool.not_eq_true, isFree_iff] at hocc
    push Not at hocc
    obtain ⟨q, hq, htaken⟩ := hocc
    intro q' hq'
    refine hsat q q' ?_ (by simpa using htaken) (hfree q hq)
    rw [(inBlock_iff hr.1 (hr.2 p' hstart)).mp hq, (inBlock_iff hr.1 (hr.2 p' hstart)).mp hq']

/-- Taking a free block of whole smaller blocks keeps the difference saturated. -/
theorem saturated_occupy {small : ℕ} (hsize : 0 < size) (hp : size ∣ p) (hsmall : small ∣ size)
    (hsub : ∀ q, occupied' q = true → occupied q = true)
    (hfree : ∀ q, InBlock p size q → occupied q = false)
    (hsat : Saturated small occupied occupied') :
    Saturated small (occupy occupied p size) occupied' := by
  intro q q' hqq' hq hq'
  rw [occupy_eq_true] at hq ⊢
  by_cases hblock : InBlock p size q
  · have hblock' := (inBlock_congr hsize hp hsmall hqq').mp hblock
    refine ⟨.inl hblock', ?_⟩
    rw [← Bool.not_eq_true]
    intro hocc
    exact Bool.noConfusion ((hsub q' hocc).symm.trans (hfree q' hblock'))
  · obtain ⟨htaken, hopen⟩ := hsat q q' hqq' (hq.resolve_left hblock) hq'
    exact ⟨.inr htaken, hopen⟩

theorem saturated_occupy' {small : ℕ} (hsize : 0 < size) (hp : size ∣ p) (hsmall : small ∣ size)
    (hsat : Saturated small occupied occupied') :
    Saturated small occupied (occupy occupied' p size) := by
  intro q q' hqq' hq hq'
  obtain ⟨hblock, hopen⟩ := occupy_eq_false.mp hq'
  obtain ⟨htaken, hopen'⟩ := hsat q q' hqq' hq hopen
  refine ⟨htaken, occupy_eq_false.mpr ⟨?_, hopen'⟩⟩
  rwa [← inBlock_congr hsize hp hsmall hqq']

/-- The requests that are kept. -/
def kept (rs : List (Request × Bool)) : List Request :=
  (rs.filter (·.2)).map (·.1)

/-- No kept request is larger than an earlier one, in whole blocks. -/
def KeptDivides (rs : List (Request × Bool)) : Prop :=
  rs.Pairwise (fun a b ↦ b.2 = true → b.1.size ∣ a.1.size)

/-- Requests that can be placed can still be placed after some of them are dropped, if no
request that stays is larger than an earlier one. -/
theorem placeAll_kept {capacity used used' : ℕ} {rs : List (Request × Bool)} {ps : List ℕ}
    (haligned : ∀ a ∈ rs, a.1.Aligned) (hdvd : KeptDivides rs)
    (hsub : ∀ q, occupied' q = true → occupied q = true) (hused : used' ≤ used)
    (hsat : ∀ a ∈ rs, a.2 = true → Saturated a.1.size occupied occupied')
    (h : placeAll capacity occupied used (rs.map (·.1)) = some ps) :
    ∃ ps', placeAll capacity occupied' used' (kept rs) = some ps' := by
  induction rs generalizing occupied occupied' used used' ps with
  | nil => exact ⟨[], rfl⟩
  | cons a rs ih =>
    obtain ⟨r, stays⟩ := a
    obtain ⟨hr, hrs⟩ := List.forall_mem_cons.mp haligned
    obtain ⟨hhead, htail⟩ := List.pairwise_cons.mp hdvd
    obtain ⟨hcap, p, hp, rest, hrest, -⟩ := placeAll_cons.mp h
    obtain ⟨hstart, hfree⟩ := placeOne_some hp
    have hpdvd := hr.2 p hstart
    have hsat' : ∀ b ∈ rs, b.2 = true →
        Saturated b.1.size (occupy occupied p r.size) occupied' := fun b hb hbs ↦
      saturated_occupy hr.1 hpdvd (hhead b hb hbs) hsub hfree
        (hsat b (List.mem_cons_of_mem _ hb) hbs)
    cases stays with
    | false =>
      refine ih hrs htail (fun q hq ↦ ?_) (Nat.le_add_right_of_le hused) hsat' hrest
      exact occupy_eq_true.mpr (.inr (hsub q hq))
    | true =>
      obtain ⟨p', hp', hchoice⟩ :=
        placeOne_mono hr hsub (hsat _ List.mem_cons_self rfl) hp
      have hsub' : ∀ q, occupy occupied' p' r.size q = true →
          occupy occupied p r.size q = true := by
        intro q hq
        rw [occupy_eq_true] at hq ⊢
        rcases hq with hblock | hocc
        · rcases hchoice with rfl | hnew
          · exact .inl hblock
          · exact .inr (hnew q hblock).1
        · exact .inr (hsub q hocc)
      have hnext : ∀ b ∈ rs, b.2 = true →
          Saturated b.1.size (occupy occupied p r.size) (occupy occupied' p' r.size) :=
        fun b hb hbs ↦ saturated_occupy' hr.1 (hr.2 p' (placeOne_some hp').1)
          (hhead b hb hbs) (hsat' b hb hbs)
      obtain ⟨ps', hps'⟩ := ih hrs htail hsub' (Nat.add_le_add_right hused r.size) hnext hrest
      exact ⟨p' :: ps', placeAll_cons.mpr
        ⟨(Nat.add_le_add_right hused r.size).trans hcap, p', hp', ps', hps', rfl⟩⟩

theorem placeAll_append {capacity used : ℕ} {rs rs' : List Request} {ps : List ℕ}
    (h : placeAll capacity occupied used (rs ++ rs') = some ps) :
    ∃ occ used' rest, placeAll capacity occ used' rs' = some rest ∧
      ∀ rs'', (∃ rest', placeAll capacity occ used' rs'' = some rest') →
        ∃ ps', placeAll capacity occupied used (rs ++ rs'') = some ps' := by
  induction rs generalizing occupied used ps with
  | nil => exact ⟨occupied, used, ps, h, fun rs'' h'' ↦ h''⟩
  | cons r rs ih =>
    obtain ⟨hcap, p, hp, rest, hrest, -⟩ := placeAll_cons.mp h
    obtain ⟨occ, used', rest', htail, hother⟩ := ih hrest
    refine ⟨occ, used', rest', htail, fun rs'' h'' ↦ ?_⟩
    obtain ⟨ps', hps'⟩ := hother rs'' h''
    exact ⟨p :: ps', placeAll_cons.mpr ⟨hcap, p, hp, ps', hps', rfl⟩⟩

/-- Only the requests from the first dropped one on matter. -/
theorem placeAll_drop {capacity : ℕ} {pre : List Request} {rs : List (Request × Bool)} {used : ℕ}
    {ps : List ℕ} (haligned : ∀ a ∈ rs, a.1.Aligned) (hdvd : KeptDivides rs)
    (h : placeAll capacity occupied used (pre ++ rs.map (·.1)) = some ps) :
    ∃ ps', placeAll capacity occupied used (pre ++ kept rs) = some ps' := by
  obtain ⟨occ, used', rest, hrest, hother⟩ := placeAll_append h
  exact hother _ (placeAll_kept haligned hdvd (fun q hq ↦ hq) le_rfl
    (fun a _ _ ↦ saturated_refl occ a.1.size) hrest)

end Removal

end EdgeSlice.Placement
