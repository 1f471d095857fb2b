import EdgeSlice.MarkedStream
import EdgeSlice.Rlc.AmRxList

namespace EdgeSlice.Rlc

open MarkedStream

/-- What `rlc_am_entity_t` keeps for the reassembly. -/
structure AmSdus where
  /-- Up to `output_sdu_size_to_write`. -/
  outputSduInConstruction : Option Bytes
  dataInd : List Bytes
  deriving DecidableEq, Repr

namespace AmSdus

/-- `rlc_am_reassembly`. -/
def reassembly (src : Bytes) (r : AmSdus) : AmSdus :=
  let written := r.outputSduInConstruction.getD []
  if written.length + src.length ≤ rlcSduMaxSize then
    { r with outputSduInConstruction := some (written ++ src) }
  else { r with outputSduInConstruction := some [] }

/-- `rlc_am_send_sdu`; `none` if its assertion fails. -/
def sendSdu (r : AmSdus) : Option AmSdus :=
  match r.outputSduInConstruction with
  | none => some r
  | some sdu =>
    if sdu.length > 0 then some { outputSduInConstruction := none, dataInd := r.dataInd ++ [sdu] } else none

/-- The loop over the LIs, with the offset `j` behind the last one. -/
def reassembleLis (payload : Bytes) : ℕ → List ℕ → AmSdus → Option (ℕ × AmSdus)
  | j, [], r => some (j, r)
  | j, li :: lis, r =>
    (r.reassembly ((payload.drop j).take li)).sendSdu.bind (reassembleLis payload (j + li) lis)

end AmSdus

namespace AmRxBlock

/-- The bytes behind the last LI. -/
def hidden (p : AmRxBlock) (j : ℕ) : Bytes := (p.data.drop j).take p.pduInfo.hiddenSize.toNat

/-- `rlc_am_reassemble_pdu`; `none` if an assertion fails. -/
def reassemblePdu (p : AmRxBlock) (r : AmSdus) : Option AmSdus :=
  let info := p.pduInfo
  if ¬info.e then
    let payload := p.data.take info.payloadSize.toNat
    if info.fi = 0 then r.sendSdu.bind fun r ↦ (r.reassembly payload).sendSdu
    else if info.fi = 1 then r.sendSdu.bind fun r ↦ some (r.reassembly payload)
    else if info.fi = 2 then (r.reassembly payload).sendSdu
    else some (r.reassembly payload)
  else if info.fi = 0 then
    r.sendSdu.bind fun r ↦ (r.reassembleLis p.data 0 info.liList).bind fun (j, r) ↦
      if info.hiddenSize > 0 then (r.reassembly (p.hidden j)).sendSdu else some r
  else if info.fi = 1 then
    r.sendSdu.bind fun r ↦ (r.reassembleLis p.data 0 info.liList).bind fun (j, r) ↦
      if info.hiddenSize > 0 then some (r.reassembly (p.hidden j)) else some r
  else if info.fi = 2 then
    (r.reassembleLis p.data 0 info.liList).bind fun (j, r) ↦
      if info.hiddenSize > 0 then (r.reassembly (p.hidden j)).sendSdu else some r
  else
    (r.reassembleLis p.data 0 info.liList).bind fun (j, r) ↦
      if info.hiddenSize > 0 then some (r.reassembly (p.hidden j)) else some r

/-- The first byte of the data is the first byte of an SDU. -/
def startsSdu (p : AmRxBlock) : Bool := p.pduInfo.fi &&& 2 = 0

/-- The last byte of the data is the last byte of an SDU. -/
def endsSdu (p : AmRxBlock) : Bool := p.pduInfo.fi &&& 1 = 0

/-- Where the SDUs end that have LIs, from `s` on. -/
def sduEnds : ℕ → List ℕ → List ℕ
  | _, [] => []
  | s, li :: lis => (s + li) :: sduEnds (s + li) lis

/-- An AMD PDU, or a segment of one. -/
structure WellFormed (p : AmRxBlock) : Prop where
  fi_lt : p.pduInfo.fi < 4
  e_iff : p.pduInfo.e ↔ p.pduInfo.liList ≠ []
  nonempty : p.data ≠ []
  payloadSize : p.pduInfo.payloadSize = p.data.length
  size_lt : p.data.length < 2 ^ 15
  li_pos : ∀ li ∈ p.pduInfo.liList, 0 < li
  sum_le : p.pduInfo.liList.sum ≤ p.data.length
  hiddenSize : p.pduInfo.hiddenSize = p.data.length - p.pduInfo.liList.sum

/-- There is the end of an SDU, or the start of one, before the byte `k`. -/
def marked (p : AmRxBlock) (k : ℕ) : Bool :=
  k ∈ sduEnds 0 p.pduInfo.liList ∨ k = 0 ∧ p.startsSdu ∨ k = p.data.length ∧ p.endsSdu

end AmRxBlock

namespace AmSdus

variable {r r' : AmSdus} {src data : Bytes} {m : ℕ → Bool} {j : ℕ} {lis : List ℕ} {ends : Bool}

/-- The size of the SDU in construction. -/
def written (r : AmSdus) : ℕ := (r.outputSduInConstruction.getD []).length

theorem sendSdu_sendSdu (h : r.sendSdu = some r') : r'.sendSdu = some r' := by
  simp only [sendSdu] at h
  split at h
  · rename_i hnone
    cases h
    simp only [sendSdu, hnone]
  · split_ifs at h
    cases h
    rfl

theorem written_sendSdu (h : r.sendSdu = some r') : r'.written = 0 := by
  simp only [sendSdu] at h
  split at h
  · rename_i hnone
    cases h
    simp only [written, hnone, Option.getD_none, List.length_nil]
  · split_ifs at h
    cases h
    rfl

def push (b : UInt8) (r : AmSdus) : AmSdus :=
  { r with outputSduInConstruction := some (r.outputSduInConstruction.getD [] ++ [b]) }

/-- The reassembly, one byte after the other; an SDU that grows too large is an error. -/
def reader : Reader UInt8 AmSdus where
  push b r := if r.written < rlcSduMaxSize then some (r.push b) else none
  close := sendSdu
  close_close := sendSdu_sendSdu

theorem reassembly_of_le (h : r.written + src.length ≤ rlcSduMaxSize) : r.reassembly src =
    { r with outputSduInConstruction := some (r.outputSduInConstruction.getD [] ++ src) } := if_pos h

theorem pushAll_eq (hsrc : src ≠ []) : reader.pushAll src r =
    if r.written + src.length ≤ rlcSduMaxSize then some (r.reassembly src) else none := by
  induction src generalizing r with
  | nil => exact absurd rfl hsrc
  | cons b src ih =>
    rw [Reader.pushAll, List.length_cons]
    by_cases hroom : r.written < rlcSduMaxSize
    · have hpush : reader.push b r = some (r.push b) := if_pos hroom
      have hwritten : (r.push b).written = r.written + 1 := List.length_append
      rw [hpush, Option.bind_some]
      by_cases hnil : src = []
      · subst hnil
        have hle : r.written + [b].length ≤ rlcSduMaxSize := hroom
        rw [reassembly_of_le hle]
        exact (if_pos hle).symm
      · rw [ih hnil, hwritten, Nat.add_assoc, Nat.add_comm 1]
        split_ifs with hfits
        · rw [reassembly_of_le (by rw [hwritten]; omega), reassembly_of_le (by simpa using hfits)]
          simp only [push, Option.getD_some, List.append_assoc, List.singleton_append]
        · rfl
    · have hpush : reader.push b r = none := if_neg hroom
      rw [hpush, if_neg (by omega)]
      rfl

/-- An SDU is sent at once after its last part. -/
theorem sendSdu_reassembly (hsrc : src ≠ []) (h : r.written + src.length ≤ rlcSduMaxSize) :
    ∃ r', (r.reassembly src).sendSdu = some r' ∧ r'.written = 0 := by
  have hpos : 0 < (r.outputSduInConstruction.getD [] ++ src).length := by
    simpa using Or.inr (List.length_pos_of_ne_nil hsrc)
  rw [reassembly_of_le h]
  exact ⟨_, if_pos hpos, rfl⟩

end AmSdus

namespace AmRxBlock

variable {s t k : ℕ} {lis pre post : List ℕ}

theorem sduEnds_append : sduEnds s (pre ++ post) = sduEnds s pre ++ sduEnds (s + pre.sum) post := by
  induction pre generalizing s with
  | nil => rfl
  | cons li pre ih => simp only [List.cons_append, sduEnds, ih, List.sum_cons, Nat.add_assoc]

theorem sduEnds_add : sduEnds (s + t) lis = (sduEnds s lis).map (· + t) := by
  induction lis generalizing s with
  | nil => rfl
  | cons li lis ih =>
    have hcomm : s + t + li = s + li + t := Nat.add_right_comm s t li
    simp only [sduEnds, List.map_cons, hcomm, ih]

theorem mem_sduEnds_le (h : k ∈ sduEnds s lis) : s ≤ k ∧ k ≤ s + lis.sum := by
  induction lis generalizing s with
  | nil => exact absurd h List.not_mem_nil
  | cons li lis ih =>
    simp only [sduEnds, List.mem_cons, List.sum_cons] at h ⊢
    obtain rfl | h := h
    · omega
    · have hle := ih h
      omega

theorem lt_of_mem_sduEnds (hpos : ∀ li ∈ lis, 0 < li) (h : k ∈ sduEnds s lis) : s < k := by
  cases lis with
  | nil => exact absurd h List.not_mem_nil
  | cons li lis =>
    have hli := hpos li List.mem_cons_self
    simp only [sduEnds, List.mem_cons] at h
    obtain rfl | h := h
    · omega
    · have hle := mem_sduEnds_le h
      omega

end AmRxBlock

namespace AmSdus

open AmRxBlock

variable {r r' : AmSdus} {data : Bytes} {m : ℕ → Bool} {j li : ℕ} {lis : List ℕ} {ends : Bool}

/-- The part of the data that ends at an LI. -/
theorem read_part (hli : 0 < li) (hle : j + li ≤ data.length) (hpass : reader.pass m j r = some r)
    (hinside : ∀ k, j < k → k < j + li → m k = false) (hend : m (j + li) = true) :
    reader.read m j (data.drop j) r =
      if r.written + li ≤ rlcSduMaxSize then
        ((r.reassembly ((data.drop j).take li)).sendSdu.bind (reader.read m (j + li) (data.drop (j + li))))
      else none := by
  have hlength : ((data.drop j).take li).length = li := by
    rw [List.length_take, List.length_drop]
    omega
  have hne : (data.drop j).take li ≠ [] := List.ne_nil_of_length_pos (by omega)
  have hclose : reader.pass m (j + li) = sendSdu := by
    funext r
    simp only [Reader.pass, hend, if_true, reader]
  have hfirst : reader.read m j ((data.drop j).take li) r =
      if r.written + li ≤ rlcSduMaxSize then (r.reassembly ((data.drop j).take li)).sendSdu else none := by
    rw [Reader.read_unmarked hne, hpass, hlength, hclose, Option.bind_some, pushAll_eq hne, hlength]
    · split_ifs
      · rfl
      · rfl
    · intro i hi hlt
      exact hinside (j + i) (by omega) (by omega)
  have hsplit : data.drop j = (data.drop j).take li ++ data.drop (j + li) := by
    rw [← List.drop_drop, List.take_append_drop]
  rw [hsplit, Reader.read_append, ← hsplit, hfirst, hlength]
  split_ifs
  · rfl
  · rfl

/-- The data behind the last LI, which may be none. -/
def lastPart (data : Bytes) (ends : Bool) (j : ℕ) (r : AmSdus) : Option AmSdus :=
  if j < data.length then
    if ends then (r.reassembly (data.drop j)).sendSdu else some (r.reassembly (data.drop j))
  else some r

theorem read_lastPart (hpass : reader.pass m j r = some r) (hinside : ∀ k, j < k → k < data.length → m k = false)
    (hend : j < data.length → (m data.length ↔ ends)) :
    reader.read m j (data.drop j) r =
      if r.written + (data.length - j) ≤ rlcSduMaxSize ∨ data.length ≤ j then lastPart data ends j r else none := by
  by_cases hj : j < data.length
  · have hlength : (data.drop j).length = data.length - j := List.length_drop
    have hne : data.drop j ≠ [] := List.ne_nil_of_length_pos (by omega)
    have hstop : j + (data.length - j) = data.length := by omega
    rw [Reader.read_unmarked hne, hpass, hlength, hstop, Option.bind_some, pushAll_eq hne, hlength]
    · simp only [lastPart, hj, if_true, not_le.mpr hj, or_false]
      have hmark : m data.length = ends := Bool.eq_iff_iff.mpr (hend hj)
      split_ifs with hfits hends
      · simp only [Option.bind_some, Reader.pass, hmark, hends, if_true, reader]
      · simp only [Option.bind_some, Reader.pass, hmark, hends]
        rfl
      · rfl
    · intro i hi hlt
      exact hinside (j + i) (by omega) (by omega)
  · rw [List.drop_of_length_le (by omega), Reader.read_nil, hpass, if_pos (Or.inr (by omega)), lastPart, if_neg hj]

/-- What the marks are behind `j`. -/
structure Marks (data : Bytes) (ends : Bool) (m : ℕ → Bool) (j : ℕ) (lis : List ℕ) : Prop where
  li_pos : ∀ li ∈ lis, 0 < li
  sum_le : j + lis.sum ≤ data.length
  mark_iff : ∀ k, j < k → k ≤ data.length → (m k ↔ k ∈ sduEnds j lis ∨ k = data.length ∧ ends)

namespace Marks

theorem next (h : Marks data ends m j (li :: lis)) : Marks data ends m (j + li) lis where
  li_pos := fun li' hli' ↦ h.li_pos li' (List.mem_cons_of_mem _ hli')
  sum_le := by
    have hle := h.sum_le
    rw [List.sum_cons] at hle
    omega
  mark_iff := fun k hk hle ↦ by
    have hne : k ≠ j + li := by omega
    rw [h.mark_iff k (by omega) hle, sduEnds, List.mem_cons, or_iff_right hne]

theorem li_le (h : Marks data ends m j (li :: lis)) : 0 < li ∧ j + li ≤ data.length := by
  have hle := h.sum_le
  rw [List.sum_cons] at hle
  exact ⟨h.li_pos li List.mem_cons_self, by omega⟩

theorem read_cons (h : Marks data ends m j (li :: lis)) (hpass : reader.pass m j r = some r) :
    reader.read m j (data.drop j) r =
      if r.written + li ≤ rlcSduMaxSize then
        ((r.reassembly ((data.drop j).take li)).sendSdu.bind (reader.read m (j + li) (data.drop (j + li))))
      else none := by
  have hle := h.li_le
  refine read_part hle.1 hle.2 hpass (fun k hk hlt ↦ ?_) ?_
  · rw [← Bool.not_eq_true, h.mark_iff k hk (by omega), sduEnds, List.mem_cons]
    intro hmark
    obtain (hk' | hmem) | hend := hmark
    · omega
    · have hbound := mem_sduEnds_le hmem
      omega
    · omega
  · exact (h.mark_iff _ (by omega) hle.2).mpr (Or.inl List.mem_cons_self)

theorem read_nil (h : Marks data ends m j []) (hpass : reader.pass m j r = some r) :
    reader.read m j (data.drop j) r =
      if r.written + (data.length - j) ≤ rlcSduMaxSize ∨ data.length ≤ j then lastPart data ends j r else none := by
  refine read_lastPart hpass (fun k hk hlt ↦ ?_) fun hj ↦ ?_
  · rw [← Bool.not_eq_true, h.mark_iff k hk hlt.le, sduEnds]
    intro hmark
    obtain hmem | hend := hmark
    · exact absurd hmem List.not_mem_nil
    · omega
  · simp [h.mark_iff _ hj le_rfl, sduEnds]

/-- An SDU is sent again after a mark. -/
theorem pass_next (h : Marks data ends m j (li :: lis)) (hsend : r.sendSdu = some r') :
    reader.pass m (j + li) r' = some r' := by
  have hle := h.li_le
  have hmark : m (j + li) = true := (h.mark_iff _ (by omega) hle.2).mpr (Or.inl List.mem_cons_self)
  simp only [Reader.pass, hmark, if_true]
  exact sendSdu_sendSdu hsend

/-- The loop does what the reader does, unless an SDU grows too large. -/
theorem reassembleLis_eq (h : Marks data ends m j lis) (hpass : reader.pass m j r = some r)
    (hread : reader.read m j (data.drop j) r = some r') :
    ∃ r₁, reassembleLis data j lis r = some (j + lis.sum, r₁) ∧ lastPart data ends (j + lis.sum) r₁ = some r' := by
  induction lis generalizing j r with
  | nil =>
    rw [h.read_nil hpass] at hread
    split_ifs at hread
    exact ⟨r, rfl, hread⟩
  | cons li lis ih =>
    rw [h.read_cons hpass] at hread
    split_ifs at hread
    obtain ⟨r₂, hsend, hrest⟩ := Option.bind_eq_some_iff.mp hread
    obtain ⟨r₁, hloop, hlast⟩ := ih h.next (h.pass_next hsend) hrest
    rw [Nat.add_assoc] at hloop hlast
    refine ⟨r₁, ?_, hlast⟩
    rw [reassembleLis, hsend]
    exact hloop

/-- Nothing fails if all parts fit. -/
theorem read_isSome (h : Marks data ends m j lis) (hpass : reader.pass m j r = some r)
    (hfirst : r.written + lis.headD (data.length - j) ≤ rlcSduMaxSize)
    (hparts : ∀ n ∈ lis, n ≤ rlcSduMaxSize) (hlast : data.length - (j + lis.sum) ≤ rlcSduMaxSize) :
    ∃ r', reader.read m j (data.drop j) r = some r' := by
  induction lis generalizing j r with
  | nil =>
    rw [List.headD_nil] at hfirst
    rw [h.read_nil hpass, if_pos (Or.inl hfirst), lastPart]
    split_ifs with hj hends
    · have hne : data.drop j ≠ [] := List.ne_nil_of_length_pos (by rw [List.length_drop]; omega)
      obtain ⟨r', hsend, _⟩ := sendSdu_reassembly hne (by rw [List.length_drop]; exact hfirst)
      exact ⟨r', hsend⟩
    · exact ⟨_, rfl⟩
    · exact ⟨_, rfl⟩
  | cons li lis ih =>
    have hle := h.li_le
    rw [List.headD_cons] at hfirst
    have hlength : ((data.drop j).take li).length = li := by
      rw [List.length_take, List.length_drop]
      omega
    have hne : (data.drop j).take li ≠ [] := List.ne_nil_of_length_pos (by omega)
    obtain ⟨r₂, hsend, hwritten⟩ := sendSdu_reassembly (r := r) hne (by rw [hlength]; exact hfirst)
    rw [List.sum_cons, ← Nat.add_assoc] at hlast
    obtain ⟨r', hrest⟩ := ih (r := r₂) h.next (h.pass_next hsend)
      (by
        rw [hwritten, Nat.zero_add]
        cases lis with
        | nil => exact hlast
        | cons n lis => exact hparts n (by simp))
      (fun n hn ↦ hparts n (List.mem_cons_of_mem _ hn)) hlast
    rw [h.read_cons hpass, if_pos hfirst, hsend]
    exact ⟨r', hrest⟩

end Marks

end AmSdus

namespace AmRxBlock

open AmSdus

variable {p : AmRxBlock} {r r' : AmSdus}

namespace WellFormed

theorem fi_cases (hp : p.WellFormed) :
    p.pduInfo.fi = 0 ∧ p.startsSdu = true ∧ p.endsSdu = true ∨
      p.pduInfo.fi = 1 ∧ p.startsSdu = true ∧ p.endsSdu = false ∨
      p.pduInfo.fi = 2 ∧ p.startsSdu = false ∧ p.endsSdu = true ∨
      p.pduInfo.fi = 3 ∧ p.startsSdu = false ∧ p.endsSdu = false := by
  have hlt : p.pduInfo.fi.toNat < 4 := hp.fi_lt
  have hcases : p.pduInfo.fi = 0 ∨ p.pduInfo.fi = 1 ∨ p.pduInfo.fi = 2 ∨ p.pduInfo.fi = 3 := by
    simp only [← UInt8.toNat_inj, UInt8.reduceToNat]
    omega
  simp only [startsSdu, endsSdu]
  obtain hfi | hfi | hfi | hfi := hcases
  all_goals
    rw [hfi]
    decide

theorem length_pos (hp : p.WellFormed) : 0 < p.data.length := List.length_pos_of_ne_nil hp.nonempty

theorem marks (hp : p.WellFormed) : Marks p.data p.endsSdu p.marked 0 p.pduInfo.liList where
  li_pos := hp.li_pos
  sum_le := by
    rw [Nat.zero_add]
    exact hp.sum_le
  mark_iff := fun k hk _ ↦ by
    have hne : k ≠ 0 := by omega
    simp only [marked, hne, false_and, false_or, decide_eq_true_eq]

theorem marked_zero (hp : p.WellFormed) : p.marked 0 = p.startsSdu := by
  have hnot : 0 ∉ sduEnds 0 p.pduInfo.liList := by
    intro hmem
    exact absurd (lt_of_mem_sduEnds hp.li_pos hmem) (lt_irrefl 0)
  have hne : 0 ≠ p.data.length := hp.length_pos.ne
  simp only [marked, hnot, hne, true_and, false_and, false_or, or_false, Bool.decide_eq_true]

theorem hidden_eq (hp : p.WellFormed) : p.hidden p.pduInfo.liList.sum = p.data.drop p.pduInfo.liList.sum := by
  have hle := hp.sum_le
  have hsize : p.pduInfo.hiddenSize.toNat = p.data.length - p.pduInfo.liList.sum := by
    rw [hp.hiddenSize]
    omega
  rw [hidden, hsize]
  exact List.take_of_length_le List.length_drop.le

/-- The eight cases of the reassembly are one. -/
theorem reassemblePdu_eq (hp : p.WellFormed) {r₀ r₁ : AmSdus}
    (hstart : (if p.startsSdu then r.sendSdu else some r) = some r₀)
    (hloop : reassembleLis p.data 0 p.pduInfo.liList r₀ = some (p.pduInfo.liList.sum, r₁)) :
    p.reassemblePdu r = lastPart p.data p.endsSdu p.pduInfo.liList.sum r₁ := by
  by_cases he : p.pduInfo.e
  · have hhidden : p.pduInfo.hiddenSize > 0 ↔ p.pduInfo.liList.sum < p.data.length := by
      rw [hp.hiddenSize]
      omega
    obtain ⟨hfi, hs, he'⟩ | ⟨hfi, hs, he'⟩ | ⟨hfi, hs, he'⟩ | ⟨hfi, hs, he'⟩ := hp.fi_cases
    all_goals
      simp only [hs, if_true, Bool.false_eq_true, if_false, Option.some_inj] at hstart
      simp [reassemblePdu, lastPart, he, hfi, he', hstart, hloop, hhidden, hp.hidden_eq]
  · have hnil : p.pduInfo.liList = [] := not_not.mp (mt hp.e_iff.mpr he)
    have hpayload : p.data.take p.pduInfo.payloadSize.toNat = p.data := by
      rw [hp.payloadSize]
      exact List.take_length
    rw [hnil] at hloop ⊢
    cases hloop
    obtain ⟨hfi, hs, he'⟩ | ⟨hfi, hs, he'⟩ | ⟨hfi, hs, he'⟩ | ⟨hfi, hs, he'⟩ := hp.fi_cases
    all_goals
      simp only [hs, if_true, Bool.false_eq_true, if_false, Option.some_inj] at hstart
      simp [reassemblePdu, lastPart, he, hfi, he', hstart, hpayload, hp.length_pos]

/-- The bytes one after the other give what the parts give. -/
theorem reassemblePdu_of_read (hp : p.WellFormed) (h : reader.read p.marked 0 p.data r = some r') :
    p.reassemblePdu r = some r' := by
  rw [← Reader.pass_bind_read] at h
  obtain ⟨r₀, hpass, hread⟩ := Option.bind_eq_some_iff.mp h
  have hagain := Reader.pass_pass hpass
  obtain ⟨r₁, hloop, hlast⟩ := hp.marks.reassembleLis_eq hagain hread
  simp only [Reader.pass, hp.marked_zero] at hpass
  rw [Nat.zero_add] at hloop hlast
  exact (hp.reassemblePdu_eq hpass hloop).trans hlast

end WellFormed

/-- No SDU grows too large behind what is in construction. -/
structure Fits (p : AmRxBlock) (r : AmSdus) : Prop where
  first : p.startsSdu = false → r.written + p.pduInfo.liList.headD p.data.length ≤ rlcSduMaxSize
  parts : ∀ n ∈ p.pduInfo.liList, n ≤ rlcSduMaxSize
  last : p.data.length - p.pduInfo.liList.sum ≤ rlcSduMaxSize

theorem Fits.headD_le (h : p.Fits r) : p.pduInfo.liList.headD p.data.length ≤ rlcSduMaxSize := by
  have hlast := h.last
  have hparts := h.parts
  cases hlis : p.pduInfo.liList with
  | nil => simpa [hlis] using hlast
  | cons li lis => exact hparts li (by simp [hlis])

theorem WellFormed.read_isSome (hp : p.WellFormed) (hfits : p.Fits r) {r₀ : AmSdus}
    (hpass : reader.pass p.marked 0 r = some r₀) : ∃ r', reader.read p.marked 0 p.data r = some r' := by
  have hwritten : r₀.written + p.pduInfo.liList.headD p.data.length ≤ rlcSduMaxSize := by
    simp only [Reader.pass, hp.marked_zero] at hpass
    split_ifs at hpass with hstart
    · rw [written_sendSdu hpass, Nat.zero_add]
      exact hfits.headD_le
    · cases hpass
      exact hfits.first (Bool.eq_false_of_not_eq_true hstart)
  obtain ⟨r', hread⟩ := hp.marks.read_isSome (Reader.pass_pass hpass) hwritten hfits.parts (by
    rw [Nat.zero_add]
    exact hfits.last)
  refine ⟨r', ?_⟩
  rw [← Reader.pass_bind_read, hpass]
  exact hread

/-- An SDU that cannot be sent is not sent by any PDU that starts one. -/
theorem WellFormed.reassemblePdu_none (hp : p.WellFormed) (hpass : reader.pass p.marked 0 r = none) :
    p.reassemblePdu r = none := by
  simp only [Reader.pass, hp.marked_zero] at hpass
  split_ifs at hpass with hstart
  have hsend : r.sendSdu = none := hpass
  obtain ⟨hfi, hs, _⟩ | ⟨hfi, hs, _⟩ | ⟨_, hs, _⟩ | ⟨_, hs, _⟩ := hp.fi_cases
  · simp [reassemblePdu, hfi, hsend]
  · simp [reassemblePdu, hfi, hsend]
  · exact absurd hstart (by simp [hs])
  · exact absurd hstart (by simp [hs])

end AmRxBlock

end EdgeSlice.Rlc
