import EdgeSlice.Rlc.AmReassembly

namespace EdgeSlice.Rlc

open MarkedStream

namespace AmRxBlock

/-- The ends of SDUs strictly between the bytes `o` and `o + n`. -/
def endsWithin (p : AmRxBlock) (o n : ℕ) : List ℕ :=
  (sduEnds 0 p.pduInfo.liList).filter fun k ↦ o < k ∧ k < o + n

/-- `q` is what `p` says about its bytes from `o` to `o + n`; an SO has 15 bits. -/
structure IsRestriction (p : AmRxBlock) (o n : ℕ) (q : AmRxBlock) : Prop where
  rf : q.pduInfo.rf
  sn : q.sn = p.sn
  so : q.pduInfo.so = (p.pduInfo.so + o) % 2 ^ 15
  lsf : q.pduInfo.lsf ↔ (p.pduInfo.lsf ∨ ¬p.pduInfo.rf) ∧ o + n = p.data.length
  data : q.data = (p.data.drop o).take n
  payloadSize : q.pduInfo.payloadSize = n
  fi_lt : q.pduInfo.fi < 4
  startsSdu : q.startsSdu = p.marked o
  endsSdu : q.endsSdu = p.marked (o + n)
  liList : sduEnds 0 q.pduInfo.liList = (p.endsWithin o n).map (· - o)
  e_iff : q.pduInfo.e ↔ q.pduInfo.liList ≠ []
  hiddenSize : q.pduInfo.hiddenSize = n - q.pduInfo.liList.sum

/-- When a part of a PDU is made right: `fi_start` is never reset, and `fi_end` only ever set. -/
def CutsRight (p : AmRxBlock) (o n : ℕ) : Prop :=
  p.pduInfo.liList = [] ∨
    (p.startsSdu → o = 0 ∨ o ∈ sduEnds 0 p.pduInfo.liList) ∧
      if o + n ∈ sduEnds 0 p.pduInfo.liList then p.endsSdu ∧ p.endsWithin o n = []
      else p.endsSdu → o + n = p.data.length

/-- The offsets and the sizes of the parts of a PDU. -/
def cuts : ℕ → List ℕ → List (ℕ × ℕ)
  | _, [] => []
  | o, n :: sizes => (o, n) :: cuts (o + n) sizes

def pieces (p : AmRxBlock) (o : ℕ) (sizes : List ℕ) : List AmRxBlock :=
  (cuts o sizes).map fun c ↦ p.createNewSegmentFromPdu c.1 c.2

def reassemblePdus : List AmRxBlock → AmSdus → Option AmSdus
  | [], r => some r
  | p :: pdus, r => (p.reassemblePdu r).bind (reassemblePdus pdus)

/-- The PDU may be cut into parts of these sizes. -/
structure CutExactly (p : AmRxBlock) (sizes : List ℕ) : Prop where
  restrictions : ∀ c ∈ cuts 0 sizes, p.IsRestriction c.1 c.2 (p.createNewSegmentFromPdu c.1 c.2)
  sameSdus : ∀ r, p.Fits r → reassemblePdus (p.pieces 0 sizes) r = p.reassemblePdu r

variable {p q : AmRxBlock} {o n s k : ℕ} {lis pre rest : List ℕ} {fiStart fiEnd : Prop}

theorem skipLis_spec (o s : ℕ) (lis : List ℕ) : ∃ pre rest, lis = pre ++ rest ∧
    skipLis o s lis = (s + pre.sum, rest) ∧ (pre ≠ [] → s + pre.sum ≤ o) ∧
      ∀ li ∈ rest.head?, o < s + pre.sum + li := by
  induction lis generalizing s with
  | nil => exact ⟨[], [], rfl, rfl, by simp, by simp⟩
  | cons li lis ih =>
    rw [skipLis]
    split_ifs with hle
    · obtain ⟨pre, rest, hlis, hskip, hpre, hrest⟩ := ih (s + li)
      have hsum : s + li + pre.sum = s + (li :: pre).sum := by
        rw [List.sum_cons, Nat.add_assoc]
      rw [hsum] at hskip hpre hrest
      refine ⟨li :: pre, rest, by rw [hlis, List.cons_append], hskip, fun _ ↦ ?_, hrest⟩
      cases pre with
      | nil => simpa using hle
      | cons li' pre => exact hpre (List.cons_ne_nil _ _)
    · exact ⟨[], li :: lis, rfl, rfl, by simp, by simpa using hle⟩

theorem takeLis_spec (remaining : ℤ) (lis : List ℕ) (h : 0 ≤ remaining) : ∃ taken post, lis = taken ++ post ∧
    takeLis remaining lis = (remaining - taken.sum, taken) ∧ (taken.sum : ℤ) ≤ remaining ∧
      ∀ li ∈ post.head?, remaining < taken.sum + li := by
  induction lis generalizing remaining with
  | nil => exact ⟨[], [], rfl, by simp [takeLis], by simpa using h, by simp⟩
  | cons li lis ih =>
    rw [takeLis]
    split_ifs with hle
    · obtain ⟨taken, post, hlis, htake, htaken, hpost⟩ := ih (remaining - li) (by omega)
      have hsum : ((li :: taken).sum : ℤ) = li + taken.sum := by
        rw [List.sum_cons, Nat.cast_add]
      refine ⟨li :: taken, post, by rw [hlis, List.cons_append], ?_, by omega, fun li' hli' ↦ ?_⟩
      · rw [htake, hsum, sub_sub]
      · have hnext := hpost li' hli'
        omega
    · exact ⟨[], li :: lis, rfl, by simp, by simpa using h, by simpa using hle⟩

theorem lt_of_head {rest : List ℕ} (hrest : ∀ li ∈ rest.head?, o < s + li) (h : k ∈ sduEnds s rest) : o < k := by
  cases rest with
  | nil => exact absurd h List.not_mem_nil
  | cons li rest =>
    have hli := hrest li rfl
    simp only [sduEnds, List.mem_cons] at h
    obtain rfl | h := h
    · exact hli
    · have hle := mem_sduEnds_le h
      omega

theorem sum_mem_sduEnds (h : lis ≠ []) : s + lis.sum ∈ sduEnds s lis := by
  induction lis generalizing s with
  | nil => exact absurd rfl h
  | cons li lis ih =>
    rw [sduEnds, List.sum_cons, ← Nat.add_assoc, List.mem_cons]
    by_cases hnil : lis = []
    · exact Or.inl (by rw [hnil, List.sum_nil, Nat.add_zero])
    · exact Or.inr (ih hnil)

/-- What the first loop has read, and what is left. -/
structure Skipped (o : ℕ) (lis pre rest : List ℕ) : Prop where
  append : lis = pre ++ rest
  skip : skipLis o 0 lis = (pre.sum, rest)
  sum_le : pre ≠ [] → pre.sum ≤ o
  head : ∀ li ∈ rest.head?, o < pre.sum + li

theorem exists_skipped (o : ℕ) (lis : List ℕ) : ∃ pre rest, Skipped o lis pre rest := by
  obtain ⟨pre, rest, hlis, hskip, hpre, hrest⟩ := skipLis_spec o 0 lis
  rw [Nat.zero_add] at hskip hpre hrest
  exact ⟨pre, rest, hlis, hskip, hpre, hrest⟩

namespace Skipped

theorem sduEnds_eq (h : Skipped o lis pre rest) : sduEnds 0 lis = sduEnds 0 pre ++ sduEnds pre.sum rest := by
  rw [h.append, sduEnds_append, Nat.zero_add]

theorem le_of_mem (h : Skipped o lis pre rest) (hk : k ∈ sduEnds 0 pre) : k ≤ pre.sum ∧ pre.sum ≤ o := by
  have hle := mem_sduEnds_le hk
  rw [Nat.zero_add] at hle
  refine ⟨hle.2, h.sum_le ?_⟩
  rintro rfl
  exact absurd hk List.not_mem_nil

theorem lt_of_mem (h : Skipped o lis pre rest) (hk : k ∈ sduEnds pre.sum rest) : o < k := lt_of_head h.head hk

/-- The range starts at the end of an SDU if that of the last LI before it is there. -/
theorem mem_iff (h : Skipped o lis pre rest) : o ∈ sduEnds 0 lis ↔ rest.length < lis.length ∧ o = pre.sum := by
  have hlength : rest.length < lis.length ↔ pre ≠ [] := by
    rw [h.append, List.length_append, ← List.length_pos_iff]
    omega
  rw [hlength, h.sduEnds_eq, List.mem_append]
  constructor
  · intro hmem
    obtain hk | hk := hmem
    · have hle := h.le_of_mem hk
      refine ⟨?_, by omega⟩
      rintro rfl
      exact absurd hk List.not_mem_nil
    · exact absurd (h.lt_of_mem hk) (lt_irrefl o)
  · intro hpre
    have hmem := sum_mem_sduEnds (s := 0) hpre.1
    rw [Nat.zero_add, ← hpre.2] at hmem
    exact Or.inl hmem

theorem mem_iff_of_lt (h : Skipped o lis pre rest) (hk : o < k) : k ∈ sduEnds 0 lis ↔ k ∈ sduEnds pre.sum rest := by
  rw [h.sduEnds_eq, List.mem_append, or_iff_right]
  intro hmem
  have hle := h.le_of_mem hmem
  omega

theorem filter_eq (h : Skipped o lis pre rest) :
    (sduEnds 0 lis).filter (fun k ↦ o < k ∧ k < o + n) = (sduEnds pre.sum rest).filter fun k ↦ k < o + n := by
  have hpre : (sduEnds 0 pre).filter (fun k ↦ o < k ∧ k < o + n) = [] := by
    refine List.filter_eq_nil_iff.mpr fun k hk ↦ ?_
    have hle := h.le_of_mem hk
    simp only [decide_eq_true_eq]
    omega
  rw [h.sduEnds_eq, List.filter_append, hpre, List.nil_append]
  refine List.filter_congr fun k hk ↦ ?_
  have hlt := h.lt_of_mem hk
  simp only [hlt, true_and]

end Skipped

/-- The flags and the LIs of a segment. -/
structure Flagged (q : AmRxBlock) (fiStart fiEnd : Prop) (lis : List ℕ) : Prop where
  fi_lt : q.pduInfo.fi < 4
  startsSdu : q.startsSdu ↔ fiStart
  endsSdu : q.endsSdu ↔ fiEnd
  liList : q.pduInfo.liList = lis

theorem flagged [Decidable fiStart] [Decidable fiEnd]
    (hfi : q.pduInfo.fi = (if fiStart then 0 else 2) ||| if fiEnd then 0 else 1) (hlis : q.pduInfo.liList = lis) :
    q.Flagged fiStart fiEnd lis := by
  refine ⟨?_, ?_, ?_, hlis⟩
  all_goals
    simp only [startsSdu, endsSdu, hfi]
    by_cases hstart : fiStart <;> by_cases hend : fiEnd <;> simp [hstart, hend] <;> decide

theorem WellFormed.fiStart_iff (hp : p.WellFormed) : (p.pduInfo.fi &&& 2) >>> 1 = 0 ↔ p.startsSdu := by
  obtain ⟨hfi, hs, _⟩ | ⟨hfi, hs, _⟩ | ⟨hfi, hs, _⟩ | ⟨hfi, hs, _⟩ := hp.fi_cases
  all_goals
    rw [hfi, hs]
    decide

theorem fiEnd_iff : p.pduInfo.fi &&& 1 = 0 ↔ p.endsSdu := by
  rw [endsSdu, decide_eq_true_eq]

/-- A PDU without LIs. -/
theorem createNewSegment_nil (hp : p.WellFormed) (hnil : p.pduInfo.liList = []) :
    (p.createNewSegmentFromPdu o n).Flagged (p.startsSdu ∧ o = 0)
      (p.endsSdu ∧ o + n = p.data.length) [] := by
  have hsize : (o : ℤ) + n = p.pduInfo.payloadSize ↔ o + n = p.data.length := by
    rw [hp.payloadSize]
    omega
  apply flagged
  · simp only [createNewSegmentFromPdu, if_pos hnil, hp.fiStart_iff, fiEnd_iff, hsize, decide_eq_true_eq]
  · simp only [createNewSegmentFromPdu, if_pos hnil]

/-- The range does not reach beyond the first LI behind its start. -/
theorem createNewSegment_first (hp : p.WellFormed) (h : Skipped o p.pduInfo.liList pre rest)
    (hne : p.pduInfo.liList ≠ []) (hn : ∀ li ∈ rest.head?, o + n ≤ pre.sum + li) :
    (p.createNewSegmentFromPdu o n).Flagged
      (p.startsSdu ∨ rest.length < p.pduInfo.liList.length ∧ o = pre.sum) p.endsSdu [] := by
  cases rest with
  | nil =>
    apply flagged
    · simp only [createNewSegmentFromPdu, if_neg hne, h.skip, hp.fiStart_iff, fiEnd_iff, decide_eq_true_eq]
    · simp only [createNewSegmentFromPdu, if_neg hne, h.skip]
  | cons li rest =>
    have hle : (n : ℤ) ≤ ((pre.sum + li - o : ℕ) : ℤ) := by
      have hfirst := hn li rfl
      omega
    apply flagged
    · simp only [createNewSegmentFromPdu, if_neg hne, h.skip, if_pos hle, hp.fiStart_iff, fiEnd_iff,
        decide_eq_true_eq]
    · simp only [createNewSegmentFromPdu, if_neg hne, h.skip, if_pos hle]

/-- The range reaches beyond the first LI behind its start. -/
theorem createNewSegment_more {li : ℕ} {taken : List ℕ} {remaining : ℤ} (hp : p.WellFormed)
    (h : Skipped o p.pduInfo.liList pre (li :: rest)) (hn : pre.sum + li < o + n)
    (htake : takeLis (n - ((pre.sum + li - o : ℕ) : ℤ)) rest = (remaining, taken)) :
    (p.createNewSegmentFromPdu o n).Flagged
      (p.startsSdu ∨ (li :: rest).length < p.pduInfo.liList.length ∧ o = pre.sum)
      (p.endsSdu ∨ remaining = 0) ((pre.sum + li - o) :: taken) := by
  have hne : p.pduInfo.liList ≠ [] := by
    rw [h.append]
    simp
  have hgt : ¬(n : ℤ) ≤ ((pre.sum + li - o : ℕ) : ℤ) := by
    have hfirst := h.head li rfl
    omega
  apply flagged
  · simp only [createNewSegmentFromPdu, if_neg hne, h.skip, if_neg hgt, htake, hp.fiStart_iff, fiEnd_iff,
      decide_eq_true_eq]
  · simp only [createNewSegmentFromPdu, if_neg hne, h.skip, if_neg hgt, htake]

theorem sum_lt_of_sduEnds (hlis : sduEnds 0 lis = (p.endsWithin o n).map (· - o)) (hn : 0 < n) : lis.sum < n := by
  by_cases hnil : lis = []
  · rw [hnil]
    exact hn
  · have hmem := sum_mem_sduEnds (s := 0) hnil
    rw [hlis, Nat.zero_add, List.mem_map] at hmem
    obtain ⟨k, hk, hsum⟩ := hmem
    have hrange := (List.mem_filter.mp hk).2
    simp only [decide_eq_true_eq] at hrange
    omega

theorem marked_iff (hk : k < p.data.length) :
    p.marked k ↔ k ∈ sduEnds 0 p.pduInfo.liList ∨ k = 0 ∧ p.startsSdu := by
  simp only [marked, hk.ne, false_and, or_false, decide_eq_true_eq]

theorem marked_end (hk : 0 < k) :
    p.marked k ↔ k ∈ sduEnds 0 p.pduInfo.liList ∨ k = p.data.length ∧ p.endsSdu := by
  simp only [marked, hk.ne', false_and, false_or, decide_eq_true_eq]

/-- The segment is a restriction if its flags and its LIs are right. -/
theorem isRestriction_iff (hp : p.WellFormed) (hn : 0 < n) (hle : o + n ≤ p.data.length)
    (hq : (p.createNewSegmentFromPdu o n).Flagged fiStart fiEnd lis) :
    p.IsRestriction o n (p.createNewSegmentFromPdu o n) ↔
      ((fiStart ↔ p.marked o) ∧ (fiEnd ↔ p.marked (o + n)) ∧
        sduEnds 0 lis = (p.endsWithin o n).map (· - o)) := by
  have hint (x : ℤ) (hx : -32768 ≤ x ∧ x < 32768) : int16 x = x := by
    rw [int16]
    omega
  have hlt := hp.size_lt
  have hdata : (p.createNewSegmentFromPdu o n).data = (p.data.drop o).take n := rfl
  have hsize : (p.createNewSegmentFromPdu o n).pduInfo.payloadSize = int16 n := rfl
  have hhidden : (p.createNewSegmentFromPdu o n).pduInfo.hiddenSize =
      int16 (n - (p.createNewSegmentFromPdu o n).pduInfo.liList.sum) := rfl
  have he : (p.createNewSegmentFromPdu o n).pduInfo.e =
      decide ((p.createNewSegmentFromPdu o n).pduInfo.liList ≠ []) := rfl
  have hlsf : (p.createNewSegmentFromPdu o n).pduInfo.lsf =
      decide ((p.pduInfo.lsf ∨ ¬p.pduInfo.rf) ∧ (o : ℤ) + n = p.pduInfo.payloadSize) := rfl
  have hend' : (o : ℤ) + n = p.pduInfo.payloadSize ↔ o + n = p.data.length := by
    rw [hp.payloadSize]
    omega
  constructor
  · intro h
    refine ⟨?_, ?_, ?_⟩
    · rw [← hq.startsSdu, h.startsSdu]
    · rw [← hq.endsSdu, h.endsSdu]
    · rw [← hq.liList, h.liList]
  · intro h
    obtain ⟨hstart, hend, hlis⟩ := h
    refine ⟨rfl, rfl, rfl, ?_, hdata, ?_, hq.fi_lt, ?_, ?_, ?_, ?_, ?_⟩
    · rw [hlsf, decide_eq_true_eq, hend']
    · exact hsize.trans (hint n (by omega))
    · rw [Bool.eq_iff_iff, hq.startsSdu, hstart]
    · rw [Bool.eq_iff_iff, hq.endsSdu, hend]
    · rw [hq.liList, hlis]
    · rw [he, decide_eq_true_eq]
    · have hsum := sum_lt_of_sduEnds hlis hn
      rw [hhidden, hq.liList, hint _ (by omega)]

theorem Skipped.endsWithin_first (h : Skipped o p.pduInfo.liList pre rest)
    (hn : ∀ li ∈ rest.head?, o + n ≤ pre.sum + li) : p.endsWithin o n = [] := by
  rw [endsWithin, h.filter_eq]
  refine List.filter_eq_nil_iff.mpr fun k hk ↦ ?_
  cases rest with
  | nil => exact absurd hk List.not_mem_nil
  | cons li rest =>
    have hli := hn li rfl
    simp only [sduEnds, List.mem_cons, decide_eq_true_eq] at hk ⊢
    obtain rfl | hk := hk
    · omega
    · have hle := mem_sduEnds_le hk
      omega

/-- The LIs that the second loop takes, against the ends of SDUs. -/
theorem Skipped.taken {li : ℕ} {taken post : List ℕ} (h : Skipped o p.pduInfo.liList pre (li :: rest))
    (hrest : rest = taken ++ post) (hle : pre.sum + li + taken.sum ≤ o + n)
    (hpost : ∀ li' ∈ post.head?, o + n < pre.sum + li + taken.sum + li') :
    (o + n ∈ sduEnds 0 p.pduInfo.liList ↔ pre.sum + li + taken.sum = o + n) ∧
      (sduEnds 0 ((pre.sum + li - o) :: taken) = (p.endsWithin o n).map (· - o) ↔
        pre.sum + li + taken.sum ≠ o + n) := by
  have hfirst := h.head li rfl
  have hsplit : sduEnds pre.sum (li :: rest) =
      sduEnds pre.sum (li :: taken) ++ sduEnds (pre.sum + li + taken.sum) post := by
    rw [hrest, ← List.cons_append, sduEnds_append, List.sum_cons, Nat.add_assoc]
  have hbound (k : ℕ) (hk : k ∈ sduEnds pre.sum (li :: taken)) : k ≤ pre.sum + li + taken.sum := by
    have hk' := (mem_sduEnds_le hk).2
    rwa [List.sum_cons, ← Nat.add_assoc] at hk'
  have hbeyond (k : ℕ) (hk : k ∈ sduEnds (pre.sum + li + taken.sum) post) : o + n < k := lt_of_head hpost hk
  have hshift : sduEnds pre.sum (li :: taken) = (sduEnds 0 ((pre.sum + li - o) :: taken)).map (· + o) := by
    rw [← sduEnds_add, Nat.zero_add, sduEnds, sduEnds, Nat.add_sub_cancel' hfirst.le]
  refine ⟨?_, fun hlis heq ↦ ?_, fun hne ↦ ?_⟩
  · rw [h.mem_iff_of_lt (by omega), hsplit, List.mem_append]
    constructor
    · intro hmem
      obtain hmem | hmem := hmem
      · have hle' := hbound _ hmem
        omega
      · exact absurd (hbeyond _ hmem) (lt_irrefl _)
    · intro heq
      have hmem := sum_mem_sduEnds (s := pre.sum) (List.cons_ne_nil li taken)
      rw [List.sum_cons, ← Nat.add_assoc, heq] at hmem
      exact Or.inl hmem
  · have hsum := sum_lt_of_sduEnds hlis (by omega)
    rw [List.sum_cons] at hsum
    omega
  · have hwithin : p.endsWithin o n = sduEnds pre.sum (li :: taken) := by
      rw [endsWithin, h.filter_eq, hsplit, List.filter_append, List.filter_eq_self.mpr, List.filter_eq_nil_iff.mpr,
        List.append_nil]
      · intro k hk
        have hlt := hbeyond k hk
        simp only [decide_eq_true_eq]
        omega
      · intro k hk
        have hle' := hbound k hk
        simp only [decide_eq_true_eq]
        omega
    have hcancel : ((· - o) ∘ (· + o) : ℕ → ℕ) = id := funext fun k ↦ Nat.add_sub_cancel k o
    rw [hwithin, hshift, List.map_map, hcancel, List.map_id]

theorem or_iff_or_and {a b c : Prop} : (a ∨ b ↔ b ∨ c ∧ a) ↔ (a → c ∨ b) := by
  tauto

/-- When a part of a PDU is its restriction. -/
theorem createNewSegment_iff (hp : p.WellFormed) (hn : 0 < n) (hle : o + n ≤ p.data.length) :
    p.IsRestriction o n (p.createNewSegmentFromPdu o n) ↔ p.CutsRight o n := by
  by_cases hnil : p.pduInfo.liList = []
  · rw [isRestriction_iff hp hn hle (createNewSegment_nil hp hnil), marked_iff (by omega), marked_end (by omega),
      CutsRight, endsWithin, hnil]
    simp [sduEnds, and_comm]
  · obtain ⟨pre, rest, h⟩ := exists_skipped o p.pduInfo.liList
    have hright : p.CutsRight o n ↔ (p.startsSdu → o = 0 ∨ o ∈ sduEnds 0 p.pduInfo.liList) ∧
        if o + n ∈ sduEnds 0 p.pduInfo.liList then p.endsSdu ∧ p.endsWithin o n = []
        else p.endsSdu → o + n = p.data.length := or_iff_right hnil
    by_cases hfirst : ∀ li ∈ rest.head?, o + n ≤ pre.sum + li
    · rw [isRestriction_iff hp hn hle (createNewSegment_first hp h hnil hfirst), marked_iff (by omega),
        marked_end (by omega), ← h.mem_iff, hright, h.endsWithin_first hfirst]
      simp only [sduEnds, List.map_nil, and_true, or_iff_or_and]
      split_ifs with hend
      · simp only [hend, true_or, iff_true]
      · simp only [hend, false_or, iff_and_self]
    · cases rest with
      | nil => exact absurd (by simp) hfirst
      | cons li rest =>
        have hmore : pre.sum + li < o + n := by simpa using hfirst
        have hstart := h.head li rfl
        obtain ⟨taken, post, hrest, htake, htaken, hpost⟩ :=
          takeLis_spec (n - ((pre.sum + li - o : ℕ) : ℤ)) rest (by omega)
        have hbeyond (li' : ℕ) (hli' : li' ∈ post.head?) : o + n < pre.sum + li + taken.sum + li' := by
          have hnext := hpost li' hli'
          omega
        obtain ⟨hend, hlis⟩ := h.taken hrest (by omega) hbeyond
        have hremaining : (n : ℤ) - ((pre.sum + li - o : ℕ) : ℤ) - taken.sum = 0 ↔
            o + n ∈ sduEnds 0 p.pduInfo.liList := by
          rw [hend]
          omega
        have hwithin : p.endsWithin o n ≠ [] := by
          have hmem : pre.sum + li ∈ sduEnds pre.sum (li :: rest) := List.mem_cons_self
          refine List.ne_nil_of_mem (List.mem_filter.mpr ⟨(h.mem_iff_of_lt hstart).mpr hmem, ?_⟩)
          simp only [decide_eq_true_eq]
          exact ⟨hstart, hmore⟩
        rw [isRestriction_iff hp hn hle (createNewSegment_more hp h hmore htake), marked_iff (by omega),
          marked_end (by omega), ← h.mem_iff, hright, hremaining, hlis, Ne, ← hend]
        simp only [or_iff_or_and]
        split_ifs with hmem
        · simp only [hmem, hwithin, not_true_eq_false, and_false]
        · simp only [hmem, or_false, not_false_eq_true, and_true]

open AmSdus

variable {sizes : List ℕ} {r r' : AmSdus}

theorem sduEnds_pairwise (hpos : ∀ li ∈ lis, 0 < li) : (sduEnds s lis).Pairwise (· < ·) := by
  induction lis generalizing s with
  | nil => exact List.Pairwise.nil
  | cons li lis ih =>
    have hrest (n : ℕ) (hn : n ∈ lis) : 0 < n := hpos n (List.mem_cons_of_mem _ hn)
    exact List.Pairwise.cons (fun k hk ↦ lt_of_mem_sduEnds hrest hk) (ih hrest)

theorem li_pos_of_pairwise (h : (s :: sduEnds s lis).Pairwise (· < ·)) : ∀ li ∈ lis, 0 < li := by
  induction lis generalizing s with
  | nil => simp
  | cons li lis ih =>
    rw [sduEnds, List.pairwise_cons] at h
    have hfirst := h.1 (s + li) List.mem_cons_self
    intro n hn
    obtain rfl | hn := List.mem_cons.mp hn
    · omega
    · exact ih h.2 n hn

theorem mem_endsWithin : k ∈ p.endsWithin o n ↔ k ∈ sduEnds 0 p.pduInfo.liList ∧ o < k ∧ k < o + n := by
  rw [endsWithin, List.mem_filter, decide_eq_true_eq]

namespace IsRestriction

theorem length_eq (h : p.IsRestriction o n q) (hle : o + n ≤ p.data.length) : q.data.length = n := by
  rw [h.data, List.length_take, List.length_drop]
  omega

theorem li_pos (h : p.IsRestriction o n q) (hp : p.WellFormed) : ∀ li ∈ q.pduInfo.liList, 0 < li := by
  apply li_pos_of_pairwise (s := 0)
  rw [h.liList]
  refine List.Pairwise.cons (fun k hk ↦ ?_) ?_
  · obtain ⟨k', hk', rfl⟩ := List.mem_map.mp hk
    have hrange := (mem_endsWithin.mp hk').2
    omega
  · refine List.pairwise_map.mpr (((sduEnds_pairwise hp.li_pos).filter _).imp_of_mem fun ha hb hlt ↦ ?_)
    have hrange := (mem_endsWithin.mp ha).2
    omega

theorem wellFormed (h : p.IsRestriction o n q) (hp : p.WellFormed) (hn : 0 < n) (hle : o + n ≤ p.data.length) :
    q.WellFormed where
  fi_lt := h.fi_lt
  e_iff := h.e_iff
  nonempty := List.ne_nil_of_length_pos (by rw [h.length_eq hle]; exact hn)
  payloadSize := by rw [h.payloadSize, h.length_eq hle]
  size_lt := by
    have hlt := hp.size_lt
    rw [h.length_eq hle]
    omega
  li_pos := h.li_pos hp
  sum_le := by
    rw [h.length_eq hle]
    exact (sum_lt_of_sduEnds h.liList hn).le
  hiddenSize := by rw [h.hiddenSize, h.length_eq hle]

/-- A restriction has the marks of the PDU. -/
theorem marked_eq (h : p.IsRestriction o n q) (hp : p.WellFormed) (hn : 0 < n) (hle : o + n ≤ p.data.length)
    (hk : k ≤ n) : q.marked k = p.marked (o + k) := by
  have hq := h.wellFormed hp hn hle
  have hlength := h.length_eq hle
  obtain rfl | hpos := Nat.eq_zero_or_pos k
  · exact hq.marked_zero.trans h.startsSdu
  · have hends : k ∈ sduEnds 0 q.pduInfo.liList ↔ o + k ∈ p.endsWithin o n := by
      rw [h.liList, List.mem_map]
      constructor
      · intro hmem
        obtain ⟨k', hk', rfl⟩ := hmem
        have hrange := (mem_endsWithin.mp hk').2
        rwa [Nat.add_sub_cancel' hrange.1.le]
      · intro hmem
        exact ⟨o + k, hmem, Nat.add_sub_cancel_left o k⟩
    rw [Bool.eq_iff_iff, marked_end hpos, hlength, hends, mem_endsWithin]
    obtain rfl | hlt := hk.eq_or_lt
    · simp [h.endsSdu]
    · rw [marked_iff (by omega)]
      simp [hlt, hpos, hlt.ne, hpos.ne']

theorem reassemblePdu_of_read (h : p.IsRestriction o n q) (hp : p.WellFormed) (hn : 0 < n)
    (hle : o + n ≤ p.data.length) (hread : reader.read p.marked o ((p.data.drop o).take n) r = some r') :
    q.reassemblePdu r = some r' := by
  apply (h.wellFormed hp hn hle).reassemblePdu_of_read
  rw [← hread, h.data]
  refine Reader.read_congr fun i hi ↦ ?_
  rw [← h.data, h.length_eq hle] at hi
  rw [Nat.zero_add]
  exact h.marked_eq hp hn hle hi

end IsRestriction

/-- The bytes of the parts. -/
def slices (p : AmRxBlock) (o : ℕ) (sizes : List ℕ) : List Bytes :=
  (cuts o sizes).map fun c ↦ (p.data.drop c.1).take c.2

theorem slices_flatten (hsum : o + sizes.sum = p.data.length) : (p.slices o sizes).flatten = p.data.drop o := by
  induction sizes generalizing o with
  | nil =>
    rw [List.sum_nil, Nat.add_zero] at hsum
    rw [hsum, List.drop_length]
    rfl
  | cons n sizes ih =>
    rw [List.sum_cons, ← Nat.add_assoc] at hsum
    have hrest := ih hsum
    simp only [slices] at hrest
    simp only [slices, cuts, List.map_cons, List.flatten_cons, hrest]
    rw [← List.drop_drop, List.take_append_drop]

/-- The parts are read as the PDU is. -/
theorem reassemblePdus_of_readAll (hp : p.WellFormed) (hpos : ∀ n ∈ sizes, 0 < n)
    (hsum : o + sizes.sum = p.data.length)
    (hparts : ∀ c ∈ cuts o sizes, p.IsRestriction c.1 c.2 (p.createNewSegmentFromPdu c.1 c.2))
    (hread : reader.readAll p.marked o (p.slices o sizes) r = some r') :
    reassemblePdus (p.pieces o sizes) r = some r' := by
  induction sizes generalizing o r with
  | nil => exact hread
  | cons n sizes ih =>
    rw [List.sum_cons, ← Nat.add_assoc] at hsum
    have hlength : ((p.data.drop o).take n).length = n := by
      rw [List.length_take, List.length_drop]
      omega
    obtain ⟨r₁, hfirst, hrest⟩ := Option.bind_eq_some_iff.mp hread
    have hpart := (hparts (o, n) List.mem_cons_self).reassemblePdu_of_read hp
      (hpos n List.mem_cons_self) (by omega) hfirst
    have hlater := ih (fun n hn ↦ hpos n (List.mem_cons_of_mem _ hn)) hsum
      (fun c hc ↦ hparts c (List.mem_cons_of_mem _ hc)) (by rwa [hlength] at hrest)
    simp only [pieces, cuts, List.map_cons, reassemblePdus, hpart, Option.bind_some]
    exact hlater

/-- A PDU may be cut into restrictions. -/
theorem reassemblePdus_pieces (hp : p.WellFormed) (hpos : ∀ n ∈ sizes, 0 < n) (hsum : sizes.sum = p.data.length)
    (hparts : ∀ c ∈ cuts 0 sizes, p.IsRestriction c.1 c.2 (p.createNewSegmentFromPdu c.1 c.2))
    (hfits : p.Fits r) : reassemblePdus (p.pieces 0 sizes) r = p.reassemblePdu r := by
  have hlength := hp.length_pos
  cases sizes with
  | nil =>
    rw [List.sum_nil] at hsum
    omega
  | cons n sizes =>
    cases hpass : reader.pass p.marked 0 r with
    | none =>
      have hfirst := hparts (0, n) List.mem_cons_self
      have hn := hpos n List.mem_cons_self
      have hle : 0 + n ≤ p.data.length := by
        rw [List.sum_cons] at hsum
        omega
      have hnone := (hfirst.wellFormed hp hn hle).reassemblePdu_none (r := r) (by
        rw [← hpass]
        exact congrFun (Reader.pass_congr (hfirst.marked_eq hp hn hle (Nat.zero_le n))) r)
      rw [hp.reassemblePdu_none hpass]
      simp only [pieces, cuts, List.map_cons, reassemblePdus, hnone, Option.bind_none]
    | some r₀ =>
      obtain ⟨r', hread⟩ := hp.read_isSome hfits hpass
      have hsum' : 0 + (n :: sizes).sum = p.data.length := by rw [Nat.zero_add, hsum]
      rw [hp.reassemblePdu_of_read hread]
      have hne : p.slices 0 (n :: sizes) ≠ [] := List.cons_ne_nil _ _
      refine reassemblePdus_of_readAll hp hpos hsum' hparts ?_
      rw [Reader.readAll_eq hne, slices_flatten hsum']
      exact hread

theorem cut_bounds {c : ℕ × ℕ} (hpos : ∀ n ∈ sizes, 0 < n) (hc : c ∈ cuts o sizes) :
    0 < c.2 ∧ c.1 + c.2 ≤ o + sizes.sum := by
  induction sizes generalizing o with
  | nil => exact absurd hc List.not_mem_nil
  | cons n sizes ih =>
    rw [List.sum_cons]
    obtain rfl | hc := List.mem_cons.mp hc
    · have hn := hpos n List.mem_cons_self
      exact ⟨hn, by omega⟩
    · have hrest := ih (fun n hn ↦ hpos n (List.mem_cons_of_mem _ hn)) hc
      exact ⟨hrest.1, by omega⟩

/-- Two SDUs in a PDU. -/
def twoSdus : AmRxBlock where
  pduInfo :=
    { dC := true
      rf := false
      p := false
      fi := 0
      e := true
      sn := 0
      lsf := false
      so := 0
      liList := [4]
      hiddenSize := 6
      payload := 4
      payloadSize := 10
      headerSize := 4 }
  allSegmentsReceived := false
  segmentReassembled := .no
  data := [0, 1, 2, 3, 4, 5, 6, 7, 8, 9]

theorem twoSdus_wellFormed : twoSdus.WellFormed where
  fi_lt := by decide
  e_iff := by decide
  nonempty := by decide
  payloadSize := rfl
  size_lt := by decide
  li_pos := by decide
  sum_le := by decide
  hiddenSize := rfl

end AmRxBlock

end EdgeSlice.Rlc
