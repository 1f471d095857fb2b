import EdgeSlice.BreakLoop
import EdgeSlice.Mac.UeGetSdu
import Mathlib.Algebra.BigOperators.Group.List.Basic
import Mathlib.Data.List.Perm.Basic

/-! The buffer status of a UE and the trigger of a regular buffer status report. -/

namespace EdgeSlice.Mac

open Function

/-- `DCCH`, the first logical channel that the report counts. -/
def dcchLcid : ℕ := 1

/-- The value that `highest_priority` keeps. -/
def highestPriority : ℤ := 16

/-- The part of `UE_mac_inst` that `update_bsr` uses: the priority of each configured logical channel,
and `scheduling_info`. -/
structure UeBsr where
  logicalChannelConfig : ℕ → Option ℤ
  lcgid : ℕ → ℕ
  lcidBufferRemain : ℕ → ℕ
  lcidNotEmpty : ℕ → Bool
  bsr : ℕ → ℕ
  bsrBytes : ℕ → ℤ
  retxBsrSf : ℕ

/-- The variables of the loop over the logical channels. -/
structure BsrLoop where
  lcgidBufferRemain : ℕ → ℕ
  numLcidWithData : ℕ
  lcidBytesInBuffer : ℕ → ℕ
  lcidReorderedArray : ℕ → ℕ
  lcidNotEmpty : ℕ → Bool
  bsrBytes : ℕ → ℤ

/-- A number stored as `int32_t`. -/
def int32 (x : ℤ) : ℤ := (x + 2147483648) % 4294967296 - 2147483648

/-- The loop that makes room at `arrayIndex`, from the entry `posNext` down. -/
def makeRoom (arrayIndex : ℕ) : ℕ → (ℕ → ℕ) → ℕ → ℕ
  | 0, array => array
  | posNext + 1, array =>
    if arrayIndex < posNext + 1 then makeRoom arrayIndex posNext (update array (posNext + 1) (array posNext))
    else array

/-- The `do` loop that inserts a logical channel, with `numLcid` channels counted so far. -/
def insertLcid (priority : ℤ) (lcid numLcid : ℕ) (array : ℕ → ℕ) (arrayIndex : ℕ) : ℕ → ℕ :=
  if priority ≤ highestPriority then update (makeRoom arrayIndex (numLcid - 1) array) arrayIndex lcid
  else if arrayIndex + 1 < numLcid ∧ arrayIndex + 1 < maxNumLcid then
    insertLcid priority lcid numLcid array (arrayIndex + 1)
  else array
termination_by numLcid - arrayIndex

/-- The sum of what was available per group before, in `uint16_t`. -/
def BsrLoop.addRemain (st : BsrLoop) (lcgid remain : ℕ) : BsrLoop :=
  { st with
    lcgidBufferRemain := update st.lcgidBufferRemain lcgid ((st.lcgidBufferRemain lcgid + remain) % 65536) }

variable (ue : UeBsr) (bytesInBuffer : ℕ → ℕ)

/-- One logical channel. -/
def countLcid (st : BsrLoop) (lcid : ℕ) : BsrLoop :=
  match ue.logicalChannelConfig lcid with
  | none => st
  | some priority =>
    let lcgid := ue.lcgid lcid
    let st :=
      if lcgid < maxNumLcgid then st.addRemain lcgid (ue.lcidBufferRemain lcid) else st
    let st := { st with lcidBytesInBuffer := update st.lcidBytesInBuffer lcid (bytesInBuffer lcid) }
    if bytesInBuffer lcid > 0 then
      let st := { st with lcidNotEmpty := update st.lcidNotEmpty lcid true }
      if lcgid < maxNumLcgid then
        { st with
          numLcidWithData := st.numLcidWithData + 1
          bsrBytes := update st.bsrBytes lcgid (int32 (st.bsrBytes lcgid + bytesInBuffer lcid))
          lcidReorderedArray := insertLcid priority lcid (st.numLcidWithData + 1) st.lcidReorderedArray 0 }
      else st
    else st

/-- The logical channels of the loops, from `DCCH` on. -/
def bsrLcids : List ℕ := List.range' dcchLcid (maxNumLcid - dcchLcid)

/-- The variables after the resets. -/
def bsrReset : BsrLoop where
  lcgidBufferRemain _ := 0
  numLcidWithData := 0
  lcidBytesInBuffer _ := 0
  lcidReorderedArray _ := maxNumLcid
  lcidNotEmpty lcid := if dcchLcid ≤ lcid ∧ lcid < maxNumLcid then false else ue.lcidNotEmpty lcid
  bsrBytes lcgid := if lcgid < maxNumLcgid then 0 else ue.bsrBytes lcgid

def countLcids : BsrLoop := bsrLcids.foldl (countLcid ue bytesInBuffer) (bsrReset ue)

/-- The test of an entry of `lcid_reordered_array`; an entry that has not been filled is past the arrays
it indexes. -/
def triggerTurn (st : BsrLoop) (arrayIndex : ℕ) : EdgeSlice.Turn Unit :=
  let lcid := st.lcidReorderedArray arrayIndex
  if lcid < maxNumLcid then
    if ue.lcidBufferRemain lcid = 0 ∨ st.lcgidBufferRemain (ue.lcgid lcid) = 0 then .exit () else .next
  else .fault

/-- Whether a regular report is triggered; `none` is a read outside an array. -/
def regularTriggered (st : BsrLoop) : Option Bool :=
  if st.numLcidWithData ≠ 0 then
    match EdgeSlice.Turn.run (triggerTurn ue st) (List.range st.numLcidWithData) with
    | .next => some (decide (ue.retxBsrSf = 0))
    | .exit _ => some true
    | .fault => none
  else some false

/-- What `update_bsr` leaves in `UE_mac_inst`. -/
def UeBsr.stored (st : BsrLoop) : UeBsr :=
  { ue with
    lcidBufferRemain := fun lcid ↦
      if dcchLcid ≤ lcid ∧ lcid < maxNumLcid then st.lcidBytesInBuffer lcid else ue.lcidBufferRemain lcid
    lcidNotEmpty := st.lcidNotEmpty
    bsr := fun lcgid ↦ if lcgid < maxNumLcgid then 0 else ue.bsr lcgid
    bsrBytes := st.bsrBytes }

/-- The return value, with the order of the channels that it was decided on. -/
structure BsrUpdate where
  ue : UeBsr
  reordered : List ℕ
  regular : Bool

def updateBsr : Option BsrUpdate :=
  let st := countLcids ue bytesInBuffer
  (regularTriggered ue st).map fun regular ↦
    { ue := ue.stored st, reordered := (List.range st.numLcidWithData).map st.lcidReorderedArray, regular }

end EdgeSlice.Mac

/-! When the buffer status of a UE is exact. -/

namespace EdgeSlice.Mac

open Function

/-- The store loop of a channel's place in the order. -/
theorem makeRoom_zero (n : ℕ) (array : ℕ → ℕ) (j : ℕ) :
    makeRoom 0 n array j = if 0 < j ∧ j ≤ n then array (j - 1) else array j := by
  induction n generalizing array with
  | zero =>
    have hnone : ¬ (0 < j ∧ j ≤ 0) := by omega
    rw [makeRoom, if_neg hnone]
  | succ n ih =>
    rw [makeRoom, if_pos (Nat.succ_pos n), ih]
    by_cases hlast : j = n + 1
    · subst hlast
      have hout : ¬ (0 < n + 1 ∧ n + 1 ≤ n) := by omega
      have hin : 0 < n + 1 ∧ n + 1 ≤ n + 1 := by omega
      rw [if_neg hout, if_pos hin, update_self, Nat.add_sub_cancel]
    · have hiff : 0 < j ∧ j ≤ n ↔ 0 < j ∧ j ≤ n + 1 := by omega
      have hprev : 0 < j ∧ j ≤ n → j - 1 ≠ n + 1 := by omega
      by_cases hin : 0 < j ∧ j ≤ n
      · rw [if_pos hin, if_pos (hiff.1 hin), update_of_ne (hprev hin)]
      · rw [if_neg hin, if_neg (mt hiff.2 hin), update_of_ne hlast]

variable {prio : ℤ} {lcid num : ℕ} {array : ℕ → ℕ}

theorem insertLcid_of_gt (h : ¬ prio ≤ highestPriority) (arrayIndex : ℕ) :
    insertLcid prio lcid num array arrayIndex = array := by
  induction arrayIndex using insertLcid.induct prio num with
  | case1 arrayIndex hle => exact absurd hle h
  | case2 arrayIndex _ hmore ih => rw [insertLcid, if_neg h, if_pos hmore, ih]
  | case3 arrayIndex _ hend => rw [insertLcid, if_neg h, if_neg hend]

/-- The fixed bound lets every channel in at the front. -/
theorem insertLcid_of_le (h : prio ≤ highestPriority) (j : ℕ) :
    insertLcid prio lcid (num + 1) array 0 j =
      if j = 0 then lcid else if j ≤ num then array (j - 1) else array j := by
  rw [insertLcid, if_pos h, Nat.add_sub_cancel]
  by_cases h0 : j = 0
  · rw [h0, update_self, if_pos rfl]
  · have hiff : 0 < j ∧ j ≤ num ↔ j ≤ num := by omega
    rw [update_of_ne h0, makeRoom_zero, if_neg h0]
    simp only [hiff]

theorem map_insertLcid (h : prio ≤ highestPriority) :
    (List.range (num + 1)).map (insertLcid prio lcid (num + 1) array 0) = lcid :: (List.range num).map array := by
  rw [List.range_succ_eq_map, List.map_cons, insertLcid_of_le h, if_pos rfl, List.map_map]
  congr 1
  apply List.map_congr_left
  intro i hi
  have hlt := List.mem_range.1 hi
  rw [comp_apply, insertLcid_of_le h, if_neg (Nat.succ_ne_zero i), if_pos (Nat.succ_le_of_lt hlt), Nat.succ_sub_one]

theorem int32_add_int32 (x y : ℤ) : int32 (int32 x + y) = int32 (x + y) := by
  unfold int32
  omega

theorem int32_eq_self_iff {n : ℕ} : int32 n = n ↔ n < 2147483648 := by
  unfold int32
  omega

variable (ue : UeBsr) (bytesInBuffer : ℕ → ℕ)

def UeBsr.grouped (lcid : ℕ) : Bool := (ue.logicalChannelConfig lcid).isSome && decide (ue.lcgid lcid < maxNumLcgid)

def UeBsr.priority (lcid : ℕ) : ℤ := (ue.logicalChannelConfig lcid).getD 0

/-- The channel has a group, and data. -/
def UeBsr.Joins (lcid : ℕ) : Prop := ue.grouped lcid ∧ 0 < bytesInBuffer lcid

instance (lcid : ℕ) : Decidable (ue.Joins bytesInBuffer lcid) := inferInstanceAs (Decidable (_ ∧ _))

/-- The channels with data and a group. -/
def UeBsr.listed (lcids : List ℕ) : List ℕ := lcids.filter (ue.Joins bytesInBuffer)

/-- The sum of an amount over the channels of a group. -/
def UeBsr.groupSum (amount : ℕ → ℕ) (lcgid : ℕ) (lcids : List ℕ) : ℕ :=
  ((lcids.filter fun lcid ↦ (ue.logicalChannelConfig lcid).isSome && decide (ue.lcgid lcid = lcgid)).map amount).sum

/-- What an entry of the order can be: still empty, or a listed channel that the bound lets in. -/
def UeBsr.Entry (lcids : List ℕ) (lcid : ℕ) : Prop :=
  lcid = maxNumLcid ∨ (lcid ∈ ue.listed bytesInBuffer lcids ∧ ue.priority lcid ≤ highestPriority)

/-- What the loop has computed when it has been through `lcids`. -/
structure Counted (lcids : List ℕ) (st : BsrLoop) : Prop where
  num : st.numLcidWithData = (ue.listed bytesInBuffer lcids).length
  bytes : ∀ g < maxNumLcgid, st.bsrBytes g = int32 (ue.groupSum bytesInBuffer g lcids)
  remain : ∀ g < maxNumLcgid, st.lcgidBufferRemain g = ue.groupSum ue.lcidBufferRemain g lcids % 65536
  order : (∀ c ∈ ue.listed bytesInBuffer lcids, ue.priority c ≤ highestPriority) →
    (List.range st.numLcidWithData).map st.lcidReorderedArray = (ue.listed bytesInBuffer lcids).reverse
  entries : ∀ i, ue.Entry bytesInBuffer lcids (st.lcidReorderedArray i)

variable {ue bytesInBuffer} {lcids : List ℕ} {st : BsrLoop}

theorem groupSum_concat (amount : ℕ → ℕ) {g : ℕ} (hg : g < maxNumLcgid) (lcid : ℕ) :
    ue.groupSum amount g (lcids ++ [lcid]) = ue.groupSum amount g lcids +
      if ue.grouped lcid ∧ ue.lcgid lcid = g then amount lcid else 0 := by
  rw [UeBsr.groupSum, List.filter_append, List.map_append, List.sum_append, UeBsr.groupSum]
  congr 1
  by_cases h : (ue.logicalChannelConfig lcid).isSome ∧ ue.lcgid lcid = g
  · have hgrouped : ue.grouped lcid ∧ ue.lcgid lcid = g := by simp [UeBsr.grouped, h.1, h.2, hg]
    rw [if_pos hgrouped]
    simp [h.1, h.2]
  · have hgrouped : ¬ (ue.grouped lcid ∧ ue.lcgid lcid = g) := by
      intro hboth
      simp only [UeBsr.grouped, Bool.and_eq_true] at hboth
      exact h ⟨hboth.1.1, hboth.2⟩
    rw [if_neg hgrouped, List.filter_cons_of_neg (by simpa using h)]
    rfl

variable (ue bytesInBuffer lcids) in
theorem listed_concat (lcid : ℕ) : ue.listed bytesInBuffer (lcids ++ [lcid]) =
    ue.listed bytesInBuffer lcids ++ if ue.Joins bytesInBuffer lcid then [lcid] else [] := by
  rw [UeBsr.listed, List.filter_append, UeBsr.listed]
  congr 1
  by_cases h : ue.Joins bytesInBuffer lcid
  · rw [if_pos h, List.filter_cons_of_pos (by simpa using h)]
    rfl
  · rw [if_neg h, List.filter_cons_of_neg (by simpa using h)]
    rfl

theorem Counted.start : Counted ue bytesInBuffer [] (bsrReset ue) where
  num := rfl
  bytes g hg := by simp [bsrReset, hg, UeBsr.groupSum, int32]
  remain g _ := rfl
  order _ := rfl
  entries i := Or.inl rfl

variable (ue bytesInBuffer) in
/-- One channel in the loop, field by field. -/
theorem countLcid_fields (st : BsrLoop) (lcid : ℕ) :
    (countLcid ue bytesInBuffer st lcid).lcgidBufferRemain =
      (if ue.grouped lcid then st.addRemain (ue.lcgid lcid) (ue.lcidBufferRemain lcid) else st).lcgidBufferRemain ∧
    (countLcid ue bytesInBuffer st lcid).numLcidWithData =
      st.numLcidWithData + (if ue.Joins bytesInBuffer lcid then 1 else 0) ∧
    (countLcid ue bytesInBuffer st lcid).bsrBytes =
      (if ue.Joins bytesInBuffer lcid then
        update st.bsrBytes (ue.lcgid lcid) (int32 (st.bsrBytes (ue.lcgid lcid) + bytesInBuffer lcid))
      else st.bsrBytes) ∧
    (countLcid ue bytesInBuffer st lcid).lcidReorderedArray =
      (if ue.Joins bytesInBuffer lcid then
        insertLcid (ue.priority lcid) lcid (st.numLcidWithData + 1) st.lcidReorderedArray 0
      else st.lcidReorderedArray) := by
  cases hconfig : ue.logicalChannelConfig lcid with
  | none => simp [countLcid, hconfig, UeBsr.Joins, UeBsr.grouped]
  | some prio =>
    by_cases hgroup : ue.lcgid lcid < maxNumLcgid <;> by_cases hdata : 0 < bytesInBuffer lcid <;>
      simp [countLcid, hconfig, UeBsr.Joins, UeBsr.grouped, UeBsr.priority, hgroup, hdata, BsrLoop.addRemain]

theorem Counted.step (h : Counted ue bytesInBuffer lcids st) (lcid : ℕ) :
    Counted ue bytesInBuffer (lcids ++ [lcid]) (countLcid ue bytesInBuffer st lcid) := by
  obtain ⟨hremain, hnum, hbytes, harray⟩ := countLcid_fields ue bytesInBuffer st lcid
  have hlisted := listed_concat ue bytesInBuffer lcids lcid
  refine ⟨?_, ?_, ?_, ?_, ?_⟩
  · rw [hnum, hlisted, h.num, List.length_append]
    by_cases hjoins : ue.Joins bytesInBuffer lcid
    · rw [if_pos hjoins, if_pos hjoins, List.length_singleton]
    · rw [if_neg hjoins, if_neg hjoins, List.length_nil]
  · intro g hg
    rw [hbytes, groupSum_concat _ hg]
    by_cases hjoins : ue.Joins bytesInBuffer lcid
    · rw [if_pos hjoins]
      by_cases hg' : ue.lcgid lcid = g
      · subst hg'
        rw [update_self, if_pos ⟨hjoins.1, rfl⟩, h.bytes _ hg, int32_add_int32, Nat.cast_add]
      · rw [update_of_ne (Ne.symm hg'), if_neg (fun hboth ↦ hg' hboth.2), Nat.add_zero, h.bytes g hg]
    · rw [if_neg hjoins, h.bytes g hg]
      by_cases hboth : ue.grouped lcid ∧ ue.lcgid lcid = g
      · have hempty : bytesInBuffer lcid = 0 := by
          by_contra hdata
          exact hjoins ⟨hboth.1, Nat.pos_of_ne_zero hdata⟩
        rw [if_pos hboth, hempty, Nat.add_zero]
      · rw [if_neg hboth, Nat.add_zero]
  · intro g hg
    rw [hremain, groupSum_concat _ hg]
    by_cases hgrouped : ue.grouped lcid
    · rw [if_pos hgrouped, BsrLoop.addRemain]
      by_cases hg' : ue.lcgid lcid = g
      · subst hg'
        simp only [update_self, hgrouped, and_self, if_true, h.remain _ hg]
        omega
      · simp only [update_of_ne (Ne.symm hg'), hg', and_false, if_false, Nat.add_zero, h.remain g hg]
    · rw [if_neg hgrouped, if_neg (fun hboth ↦ hgrouped hboth.1), Nat.add_zero, h.remain g hg]
  · intro hall
    rw [hlisted] at hall ⊢
    rw [hnum, harray]
    by_cases hjoins : ue.Joins bytesInBuffer lcid
    · simp only [if_pos hjoins] at hall ⊢
      have hle := hall lcid (List.mem_append_right _ List.mem_cons_self)
      rw [map_insertLcid hle, h.order fun c hc ↦ hall c (List.mem_append_left _ hc), List.reverse_append]
      rfl
    · simp only [if_neg hjoins, List.append_nil, Nat.add_zero] at hall ⊢
      exact h.order hall
  · intro i
    have hmono : ∀ c, ue.Entry bytesInBuffer lcids c → ue.Entry bytesInBuffer (lcids ++ [lcid]) c := by
      intro c hc
      apply hc.imp_right
      intro hboth
      rw [hlisted]
      exact ⟨List.mem_append_left _ hboth.1, hboth.2⟩
    rw [harray]
    by_cases hjoins : ue.Joins bytesInBuffer lcid
    · rw [if_pos hjoins] at hlisted ⊢
      by_cases hle : ue.priority lcid ≤ highestPriority
      · rw [insertLcid_of_le hle]
        split
        · right
          rw [hlisted]
          exact ⟨List.mem_append_right _ List.mem_cons_self, hle⟩
        · split
          · exact hmono _ (h.entries _)
          · exact hmono _ (h.entries _)
      · rw [insertLcid_of_gt hle]
        exact hmono _ (h.entries i)
    · rw [if_neg hjoins]
      exact hmono _ (h.entries i)

variable (ue bytesInBuffer) in
theorem counted : Counted ue bytesInBuffer bsrLcids (countLcids ue bytesInBuffer) := by
  have hall : ∀ (front rest : List ℕ) (st : BsrLoop), Counted ue bytesInBuffer front st →
      Counted ue bytesInBuffer (front ++ rest) (rest.foldl (countLcid ue bytesInBuffer) st) := by
    intro front rest
    induction rest generalizing front with
    | nil =>
      intro st h
      rwa [List.append_nil]
    | cons lcid rest ih =>
      intro st h
      have hnext := ih (front ++ [lcid]) _ (h.step lcid)
      rwa [List.append_assoc, List.singleton_append] at hnext
  exact hall [] bsrLcids (bsrReset ue) Counted.start

/-- The channel had no data before, or its group had a sum of 0 in 16 bits. -/
def UeBsr.Fires (ue : UeBsr) (lcid : ℕ) : Prop :=
  ue.lcidBufferRemain lcid = 0 ∨ ue.groupSum ue.lcidBufferRemain (ue.lcgid lcid) bsrLcids % 65536 = 0

instance (lcid : ℕ) : Decidable (ue.Fires lcid) := inferInstanceAs (Decidable (_ ∨ _))

theorem mem_bsrLcids {lcid : ℕ} (h : lcid ∈ bsrLcids) : lcid < maxNumLcid := by
  have := List.mem_range'_1.1 h
  simp only [maxNumLcid, dcchLcid] at this ⊢
  omega

/-- The value that is returned, where the order holds all the listed channels. -/
theorem regularTriggered_eq (hle : ∀ c ∈ ue.listed bytesInBuffer bsrLcids, ue.priority c ≤ highestPriority) :
    regularTriggered ue (countLcids ue bytesInBuffer) =
      some (decide (ue.listed bytesInBuffer bsrLcids ≠ [] ∧
        (ue.retxBsrSf = 0 ∨ ∃ c ∈ ue.listed bytesInBuffer bsrLcids, ue.Fires c))) := by
  have hcounted := counted ue bytesInBuffer
  have horder := hcounted.order hle
  have hmem : ∀ i < (countLcids ue bytesInBuffer).numLcidWithData,
      (countLcids ue bytesInBuffer).lcidReorderedArray i ∈ ue.listed bytesInBuffer bsrLcids := by
    intro i hi
    rw [← List.mem_reverse, ← horder]
    exact List.mem_map_of_mem (List.mem_range.2 hi)
  have hturn : ∀ i < (countLcids ue bytesInBuffer).numLcidWithData,
      triggerTurn ue (countLcids ue bytesInBuffer) i =
        if ue.Fires ((countLcids ue bytesInBuffer).lcidReorderedArray i) then .exit () else .next := by
    intro i hi
    obtain ⟨hlcid, hjoins⟩ := List.mem_filter.1 (hmem i hi)
    have hgroup : ue.lcgid ((countLcids ue bytesInBuffer).lcidReorderedArray i) < maxNumLcgid := by
      have hgrouped := (of_decide_eq_true hjoins).1
      simp only [UeBsr.grouped, Bool.and_eq_true, decide_eq_true_eq] at hgrouped
      exact hgrouped.2
    simp only [triggerTurn, if_pos (mem_bsrLcids hlcid), hcounted.remain _ hgroup]
    rfl
  by_cases hempty : ue.listed bytesInBuffer bsrLcids = []
  · have hnum : (countLcids ue bytesInBuffer).numLcidWithData = 0 := by rw [hcounted.num, hempty, List.length_nil]
    simp [regularTriggered, hnum, hempty]
  · have hnum : (countLcids ue bytesInBuffer).numLcidWithData ≠ 0 := by
      rw [hcounted.num]
      exact fun h0 ↦ hempty (List.eq_nil_of_length_eq_zero h0)
    rw [regularTriggered, if_pos hnum]
    cases hrun : EdgeSlice.Turn.run (triggerTurn ue (countLcids ue bytesInBuffer))
        (List.range (countLcids ue bytesInBuffer).numLcidWithData) with
    | next =>
      have hnone : ¬ ∃ c ∈ ue.listed bytesInBuffer bsrLcids, ue.Fires c := by
        rintro ⟨c, hc, hfires⟩
        rw [← List.mem_reverse, ← horder] at hc
        obtain ⟨i, hi, rfl⟩ := List.mem_map.1 hc
        have hnext := EdgeSlice.Turn.run_eq_next_iff.1 hrun i hi
        rw [hturn i (List.mem_range.1 hi), if_pos hfires] at hnext
        cases hnext
      simp [hempty, hnone]
    | exit r =>
      obtain ⟨i, hi, -, hexit⟩ := (EdgeSlice.Turn.run_range_eq_iff (by simp)).1 hrun
      have hfires : ue.Fires ((countLcids ue bytesInBuffer).lcidReorderedArray i) := by
        by_contra hnot
        rw [hturn i hi, if_neg hnot] at hexit
        cases hexit
      have hsome : ∃ c ∈ ue.listed bytesInBuffer bsrLcids, ue.Fires c := ⟨_, hmem i hi, hfires⟩
      simp [hempty, hsome]
    | fault =>
      obtain ⟨i, hi, -, hfault⟩ := (EdgeSlice.Turn.run_range_eq_iff (by simp)).1 hrun
      rw [hturn i hi] at hfault
      split at hfault <;> cases hfault

/-- A channel with new data that comes before every channel of a group that had data. -/
def UeBsr.Outranks (ue : UeBsr) (lcid : ℕ) : Prop :=
  ue.lcidBufferRemain lcid = 0 ∧
    ∀ d ∈ bsrLcids, ue.grouped d → ue.lcidBufferRemain d ≠ 0 → ue.priority lcid < ue.priority d

instance (lcid : ℕ) : Decidable (ue.Outranks lcid) := inferInstanceAs (Decidable (_ ∧ _))

/-- The sums, the order and the trigger are those of the procedure. -/
structure BsrExact (ue : UeBsr) (bytesInBuffer : ℕ → ℕ) (r : BsrUpdate) : Prop where
  bytes : ∀ g < maxNumLcgid, r.ue.bsrBytes g = ue.groupSum bytesInBuffer g bsrLcids
  once : r.reordered.Perm (ue.listed bytesInBuffer bsrLcids)
  sorted : r.reordered.Pairwise fun a b ↦ ue.priority a ≤ ue.priority b
  regular : r.regular = true ↔
    (ue.retxBsrSf = 0 ∧ ue.listed bytesInBuffer bsrLcids ≠ []) ∨
      ∃ c ∈ ue.listed bytesInBuffer bsrLcids, ue.Outranks c

/-- The sums fit, the channels with data have their priorities in the order of their numbers, and where
one of them fires, one outranks the channels that had data. -/
structure BsrFits (ue : UeBsr) (bytesInBuffer : ℕ → ℕ) : Prop where
  bytes : ∀ g < maxNumLcgid, ue.groupSum bytesInBuffer g bsrLcids < 2147483648
  bounded : ∀ c ∈ ue.listed bytesInBuffer bsrLcids, ue.priority c ≤ highestPriority
  falling : (ue.listed bytesInBuffer bsrLcids).Pairwise fun a b ↦ ue.priority b ≤ ue.priority a
  outranks : ue.retxBsrSf ≠ 0 → (∃ c ∈ ue.listed bytesInBuffer bsrLcids, ue.Fires c) →
    ∃ c ∈ ue.listed bytesInBuffer bsrLcids, ue.Outranks c

/-- Where the bound lets every channel in, the loop has a result. -/
theorem updateBsr_eq (hle : ∀ c ∈ ue.listed bytesInBuffer bsrLcids, ue.priority c ≤ highestPriority) :
    updateBsr ue bytesInBuffer = some
      { ue := ue.stored (countLcids ue bytesInBuffer)
        reordered := (ue.listed bytesInBuffer bsrLcids).reverse
        regular := decide (ue.listed bytesInBuffer bsrLcids ≠ [] ∧
          (ue.retxBsrSf = 0 ∨ ∃ c ∈ ue.listed bytesInBuffer bsrLcids, ue.Fires c)) } := by
  have horder := (counted ue bytesInBuffer).order hle
  simp only [updateBsr, regularTriggered_eq hle, Option.map_some, horder]

theorem updateBsr_exact_iff (ue : UeBsr) (bytesInBuffer : ℕ → ℕ) :
    (∃ r, updateBsr ue bytesInBuffer = some r ∧ BsrExact ue bytesInBuffer r) ↔ BsrFits ue bytesInBuffer := by
  have hcounted := counted ue bytesInBuffer
  constructor
  · rintro ⟨r, hr, hexact⟩
    have hbounded : ∀ c ∈ ue.listed bytesInBuffer bsrLcids, ue.priority c ≤ highestPriority := by
      intro c hc
      obtain ⟨regular, -, rfl⟩ := Option.map_eq_some_iff.1 hr
      obtain ⟨i, -, rfl⟩ := List.mem_map.1 (hexact.once.mem_iff.2 hc)
      apply Or.elim (hcounted.entries i)
      · intro hempty
        have hlt := mem_bsrLcids (List.mem_filter.1 hc).1
        omega
      · exact And.right
    rw [updateBsr_eq hbounded] at hr
    obtain rfl := Option.some_inj.1 hr
    refine ⟨?_, hbounded, List.pairwise_reverse.1 hexact.sorted, ?_⟩
    · intro g hg
      exact int32_eq_self_iff.1 ((hcounted.bytes g hg).symm.trans (hexact.bytes g hg))
    · intro hretx hfires
      have hne : ue.listed bytesInBuffer bsrLcids ≠ [] := by
        obtain ⟨c, hc, -⟩ := hfires
        exact List.ne_nil_of_mem hc
      have hspec := hexact.regular.1 (decide_eq_true ⟨hne, Or.inr hfires⟩)
      exact hspec.resolve_left fun hboth ↦ hretx hboth.1
  · intro hfits
    refine ⟨_, updateBsr_eq hfits.bounded, ?_, ?_, ?_, ?_⟩
    · intro g hg
      exact (hcounted.bytes g hg).trans (int32_eq_self_iff.2 (hfits.bytes g hg))
    · exact List.reverse_perm _
    · exact List.pairwise_reverse.2 hfits.falling
    · rw [decide_eq_true_iff]
      constructor
      · rintro ⟨hne, hretx | hfires⟩
        · exact Or.inl ⟨hretx, hne⟩
        · by_cases hretx : ue.retxBsrSf = 0
          · exact Or.inl ⟨hretx, hne⟩
          · exact Or.inr (hfits.outranks hretx hfires)
      · rintro (⟨hretx, hne⟩ | ⟨c, hc, hout⟩)
        · exact ⟨hne, Or.inl hretx⟩
        · exact ⟨List.ne_nil_of_mem hc, Or.inr ⟨c, hc, Or.inl hout.1⟩⟩

/-- SRB1 with priority 1 and data already, and a channel with priority 5 that gets data now. -/
def swappedBsr : UeBsr where
  logicalChannelConfig lcid := if lcid = 1 then some 1 else if lcid = 3 then some 5 else none
  lcgid _ := 0
  lcidBufferRemain lcid := if lcid = 1 then 40 else 0
  lcidNotEmpty _ := false
  bsr _ := 0
  bsrBytes _ := 0
  retxBsrSf := 10

def swappedBytes (lcid : ℕ) : ℕ := if lcid = 1 then 40 else if lcid = 3 then 7 else 0

/-- Channel 3 comes before SRB1 in the order. -/
theorem not_bsrExact_swapped :
    ¬ ∃ r, updateBsr swappedBsr swappedBytes = some r ∧ BsrExact swappedBsr swappedBytes r := by
  have hbounded : ∀ c ∈ swappedBsr.listed swappedBytes bsrLcids, swappedBsr.priority c ≤ highestPriority := by
    decide
  have hfalling : ¬ (swappedBsr.listed swappedBytes bsrLcids).Pairwise
      fun a b ↦ swappedBsr.priority b ≤ swappedBsr.priority a := by
    decide
  intro h
  obtain ⟨r, hr, hexact⟩ := h
  rw [updateBsr_eq hbounded] at hr
  obtain rfl := Option.some_inj.1 hr
  exact hfalling (List.pairwise_reverse.1 hexact.sorted)

end EdgeSlice.Mac
