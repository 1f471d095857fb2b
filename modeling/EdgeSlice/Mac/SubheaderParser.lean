import EdgeSlice.Mac.Subheader
import Mathlib.Data.List.Induction

namespace EdgeSlice.Mac

open Function ByteMemory Chain

/-- How a parser can fail: it returns a null pointer, stops the process, or
leaves one of its arrays or the transport block. -/
inductive ParseError
  | nullPointer
  | macphyExit
  | overrun
  deriving DecidableEq

/-- The local variables of the two header parsers. -/
structure ParseState where
  ptr : ℕ
  ces : List ℕ
  lcids : List ℕ
  lengths : List ℕ
  ceLen : ℕ
  numPadding : ℕ
  deriving DecidableEq

def ParseState.start : ParseState := ⟨0, [], [], [], 0, 0⟩

/-- The length of an SDU without a length field: what the other subheaders,
control elements and SDUs leave of the transport block, in 16 bits. -/
def implicitLength (tbLength : ℕ) (s : ParseState) : ℕ :=
  uint16 (tbLength - (s.ptr + 1) - s.ceLen - s.lengths.sum)

section Parser

variable (sduLimit : ℕ) (control : ParseState → Bool → ℕ → Except ParseError ℕ)
  (mem : ℕ → ℕ) (tbLength : ℕ)

/-- One turn of the loop of `parse_header` and `parse_ulsch_header`: an LCID
below `sduLimit` is an SDU. `control` is the payload length of a control
element, with the checks made on it; its first argument has the element in the
list already. The result says whether `E` was set. -/
def parseStep (s : ParseState) : Except ParseError (Bool × ParseState) :=
  let more := eField (mem s.ptr) == 1
  let lcid := lcidField (mem s.ptr)
  if lcid < sduLimit then
    let (length, ptr) :=
      if more = false then (implicitLength tbLength s, s.ptr + 1)
      else if fField (mem (s.ptr + 1)) = 1 then
        (lField (mem (s.ptr + 1)) * 256 + mem (s.ptr + 2) % 256, s.ptr + 3)
      else (lField (mem (s.ptr + 1)), s.ptr + 2)
    if s.lcids.length < nbRbMax then
      .ok (more, { s with ptr := ptr, lcids := s.lcids ++ [lcid], lengths := s.lengths ++ [length] })
    else .error .overrun
  else if lcid = shortPaddingLcid then
    .ok (more, { s with ptr := s.ptr + 1, numPadding := s.numPadding + 1 })
  else if s.ces.length < maxNumCe then
    let s := { s with ptr := s.ptr + 1, ces := s.ces ++ [lcid] }
    match control s more lcid with
    | .error e => .error e
    | .ok n => .ok (more, { s with ceLen := uint16 (s.ceLen + n) })
  else .error .overrun

/-- The whole loop; each turn consumes an octet of the transport block. -/
def parseSubheaders : Except ParseError ParseState :=
  loop .overrun (parseStep sduLimit control mem tbLength) tbLength .start

/-- What one subheader does to the variables. -/
def Subheader.act (s : ParseState) (more : Bool) : Subheader → Except ParseError ParseState
  | .sdu lcid length =>
    if s.lcids.length < nbRbMax then
      .ok { s with
        ptr := s.ptr + (encode more (.sdu lcid length)).length
        lcids := s.lcids ++ [lcid]
        lengths := s.lengths ++
          [if more then length % 32768 else implicitLength tbLength s] }
    else .error .overrun
  | .fixed lcid =>
    if lcid = shortPaddingLcid then
      .ok { s with ptr := s.ptr + 1, numPadding := s.numPadding + 1 }
    else if s.ces.length < maxNumCe then
      let s := { s with ptr := s.ptr + 1, ces := s.ces ++ [lcid] }
      match control s more lcid with
      | .error e => .error e
      | .ok n => .ok { s with ceLen := uint16 (s.ceLen + n) }
    else .error .overrun

/-- An SDU has an LCID below the limit, every other subheader one from it on. -/
def Subheader.Valid : Subheader → Prop
  | .sdu lcid _ => lcid < sduLimit
  | .fixed lcid => sduLimit ≤ lcid ∧ lcid < 32

variable {sduLimit control mem tbLength}

theorem lcidField_add {lcid : ℕ} (h : lcid < 32) : lcidField (lcid % 32 + 32) = lcid := by
  unfold lcidField
  omega

theorem lcidField_mod {lcid : ℕ} (h : lcid < 32) : lcidField (lcid % 32) = lcid := by
  unfold lcidField
  omega

theorem head_fields (x : Subheader) {more : Bool} {p : ℕ} (hx : x.lcid < 32)
    (h : Stores mem p (x.encode more)) :
    lcidField (mem p) = x.lcid ∧ (eField (mem p) == 1) = more := by
  cases more with
  | false =>
    have hclear : eField (x.lcid % 32) = 0 := by unfold eField; omega
    rw [h.1]
    exact ⟨lcidField_mod hx, by simp [hclear]⟩
  | true =>
    have hset : eField (x.lcid % 32 + 32) = 1 := by unfold eField; omega
    rw [h.1]
    exact ⟨lcidField_add hx, by simp [hset]⟩

variable (control tbLength) in
theorem parseStep_encode (hlimit : sduLimit ≤ 28) (s : ParseState) (more : Bool) (x : Subheader)
    (hx : x.Valid sduLimit) (h : Stores mem s.ptr (x.encode more)) :
    parseStep sduLimit control mem tbLength s =
      (x.act control tbLength s more).map (fun s' ↦ (more, s')) := by
  cases x with
  | fixed lcid =>
    obtain ⟨hlow, hhigh⟩ := hx
    obtain ⟨hlcid, hmore⟩ := head_fields (.fixed lcid) hhigh h
    have hlcid' : lcidField (mem s.ptr) = lcid := hlcid
    simp only [parseStep, hmore, hlcid', Subheader.act, if_neg (not_lt.mpr hlow)]
    split
    · rfl
    · split
      · cases control _ more lcid <;> rfl
      · rfl
  | sdu lcid length =>
    have hlt : lcid < sduLimit := hx
    obtain ⟨hlcid, hmore⟩ := head_fields (.sdu lcid length) (show lcid < 32 by omega) h
    have hlcid' : lcidField (mem s.ptr) = lcid := hlcid
    simp only [parseStep, hmore, hlcid', Subheader.act, if_pos hlt]
    cases more with
    | false =>
      simp only [if_true]
      split <;> rfl
    | true =>
      have htail := h.2
      by_cases hshort : length < 128
      · simp only [Subheader.lengthField, if_pos hshort, stores_cons] at htail
        have hf : fField length = 0 := by unfold fField; omega
        have hl : lField length = length % 32768 := by unfold lField; omega
        have hsize : (Subheader.encode true (.sdu lcid length)).length = 2 := by
          simp [Subheader.encode, Subheader.lengthField, hshort]
        simp only [htail.1, hf, hl, hsize]
        split <;> rfl
      · simp only [Subheader.lengthField, if_neg hshort, stores_cons] at htail
        have hf : fField (128 + length / 256 % 128) = 1 := by unfold fField; omega
        have hl : lField (128 + length / 256 % 128) * 256 + length % 256 % 256 =
            length % 32768 := by unfold lField; omega
        have hsize : (Subheader.encode true (.sdu lcid length)).length = 3 := by
          simp [Subheader.encode, Subheader.lengthField, hshort]
        simp only [htail.1, htail.2.1, hf, hl, hsize]
        split <;> rfl

theorem act_ptr {s s' : ParseState} {more : Bool} {x : Subheader}
    (h : x.act control tbLength s more = .ok s') : s'.ptr = s.ptr + (x.encode more).length := by
  cases x with
  | sdu lcid length =>
    simp only [Subheader.act] at h
    split at h
    · cases h
      rfl
    · cases h
  | fixed lcid =>
    have hone : (Subheader.encode more (.fixed lcid)).length = 1 := by cases more <;> rfl
    rw [hone]
    simp only [Subheader.act] at h
    split at h
    · cases h
      rfl
    · split at h
      · split at h
        · cases h
        · cases h
          rfl
      · cases h

theorem parseSubheaders_chain (hlimit : sduLimit ≤ 28) {xs : List Subheader} (hne : xs ≠ [])
    (hvalid : ∀ x ∈ xs, x.Valid sduLimit) (hmem : Stores mem 0 (chain Subheader.encode xs))
    (htb : (chain Subheader.encode xs).length ≤ tbLength) :
    parseSubheaders sduLimit control mem tbLength =
      run (fun s more x ↦ x.act control tbLength s more) xs .start := by
  have hfuel := (length_le_chain Subheader.encode_ne_nil xs).trans htb
  exact loop_chain (fun s more x ↦ parseStep_encode control tbLength hlimit s more x)
    (fun _ _ _ _ h ↦ act_ptr h) hne hvalid hfuel hmem

end Parser

namespace Subheader

/-- What the parser records of a subheader: a control element, an SDU with its
length in 15 bits, or padding. -/
def control? : Subheader → Option ℕ
  | fixed lcid => if lcid = shortPaddingLcid then none else some lcid
  | sdu _ _ => none

def sdu? : Subheader → Option (ℕ × ℕ)
  | fixed _ => none
  | sdu lcid length => some (lcid, length % 32768)

def isPadding : Subheader → Bool
  | fixed lcid => lcid == shortPaddingLcid
  | sdu _ _ => false

end Subheader

/-- The variables after the subheaders `xs`, all of them followed by others;
`ceLength` is the payload length of a control element. -/
def ParseState.after (ceLength : ℕ → ℕ) (xs : List Subheader) : ParseState where
  ptr := (xs.flatMap (Subheader.encode true)).length
  ces := xs.filterMap Subheader.control?
  lcids := (xs.filterMap Subheader.sdu?).map Prod.fst
  lengths := (xs.filterMap Subheader.sdu?).map Prod.snd
  ceLen := uint16 ((xs.filterMap Subheader.control?).map ceLength).sum
  numPadding := xs.countP Subheader.isPadding

section After

variable {control : ParseState → Bool → ℕ → Except ParseError ℕ} {ceLength : ℕ → ℕ}
  {tbLength : ℕ}

theorem uint16_add (a b : ℕ) : uint16 (uint16 a + b) = uint16 ((a + b : ℕ) : ℤ) := by
  unfold uint16
  omega

/-- The state in which the checks on a control element are made. -/
def ParseState.atControl (ceLength : ℕ → ℕ) (front : List Subheader) (lcid : ℕ) : ParseState :=
  let s := ParseState.after ceLength front
  { s with ptr := s.ptr + 1, ces := s.ces ++ [lcid] }

theorem after_control (front : List Subheader) {lcid : ℕ} (hlcid : lcid ≠ shortPaddingLcid) :
    ParseState.after ceLength (front ++ [.fixed lcid]) =
      { ParseState.after ceLength front with
        ptr := (ParseState.after ceLength front).ptr + 1
        ces := (ParseState.after ceLength front).ces ++ [lcid]
        ceLen := uint16 ((ParseState.after ceLength front).ceLen + ceLength lcid) } := by
  have hcontrol : [Subheader.fixed lcid].filterMap Subheader.control? = [lcid] := by
    simp [Subheader.control?, hlcid]
  have hsdu : [Subheader.fixed lcid].filterMap Subheader.sdu? = [] := rfl
  have hpad : [Subheader.fixed lcid].countP Subheader.isPadding = 0 := by
    simp [Subheader.isPadding, hlcid]
  simp only [ParseState.after, List.filterMap_append, hcontrol, hsdu, List.append_nil,
    List.countP_append, hpad, List.flatMap_append, List.length_append, List.map_append,
    List.sum_append, uint16_add]
  rfl

variable (tbLength) in
theorem act_control {front : List Subheader} {lcid : ℕ} {more : Bool}
    (hlcid : lcid ≠ shortPaddingLcid)
    (hfew : (front.filterMap Subheader.control?).length < maxNumCe)
    (hok : control (.atControl ceLength front lcid) more lcid = .ok (ceLength lcid)) :
    Subheader.act control tbLength (.after ceLength front) more (.fixed lcid) =
      .ok (.after ceLength (front ++ [.fixed lcid])) := by
  have hfew' : (ParseState.after ceLength front).ces.length < maxNumCe := hfew
  unfold ParseState.atControl at hok
  simp only [Subheader.act, if_neg hlcid, if_pos hfew', hok]
  rw [after_control front hlcid]

theorem after_padding (front : List Subheader) :
    ParseState.after ceLength (front ++ [.fixed shortPaddingLcid]) =
      { ParseState.after ceLength front with
        ptr := (ParseState.after ceLength front).ptr + 1
        numPadding := (ParseState.after ceLength front).numPadding + 1 } := by
  simp [ParseState.after, Subheader.control?, Subheader.sdu?, Subheader.isPadding,
    Subheader.encode, Subheader.lengthField]

variable (control ceLength tbLength) in
theorem act_padding (front : List Subheader) (more : Bool) :
    Subheader.act control tbLength (.after ceLength front) more (.fixed shortPaddingLcid) =
      .ok (.after ceLength (front ++ [.fixed shortPaddingLcid])) := by
  rw [after_padding]
  rfl

theorem act_sdu {front : List Subheader} {lcid length : ℕ}
    (hfew : (front.filterMap Subheader.sdu?).length < nbRbMax) :
    Subheader.act control tbLength (.after ceLength front) true (.sdu lcid length) =
      .ok (.after ceLength (front ++ [.sdu lcid length])) := by
  have hfew' : (ParseState.after ceLength front).lcids.length < nbRbMax := by
    simpa [ParseState.after] using hfew
  have hnone : [Subheader.sdu lcid length].filterMap Subheader.control? = [] := rfl
  simp only [Subheader.act, if_pos hfew']
  simp [ParseState.after, Subheader.sdu?, Subheader.isPadding, hnone]

variable (control ceLength tbLength) in
theorem act_last_sdu {front : List Subheader} (lcid length : ℕ)
    (hfew : (front.filterMap Subheader.sdu?).length < nbRbMax) :
    Subheader.act control tbLength (.after ceLength front) false (.sdu lcid length) =
      .ok { ParseState.after ceLength front with
        ptr := (ParseState.after ceLength front).ptr + 1
        lcids := (ParseState.after ceLength front).lcids ++ [lcid]
        lengths := (ParseState.after ceLength front).lengths ++
          [implicitLength tbLength (.after ceLength front)] } := by
  have hfew' : (ParseState.after ceLength front).lcids.length < nbRbMax := by
    simpa [ParseState.after] using hfew
  simp [Subheader.act, if_pos hfew', Subheader.encode]

variable (control ceLength tbLength) in
/-- The subheaders `xs` are read without an error when others follow. -/
def Reads (xs : List Subheader) : Prop :=
  Path (fun s more x ↦ Subheader.act control tbLength s more x) (ParseState.after ceLength) xs

variable (control ceLength tbLength) in
theorem Reads.pads (pads : ℕ) :
    Reads control ceLength tbLength (List.replicate pads (.fixed shortPaddingLcid)) := by
  induction pads with
  | zero => exact .nil
  | succ pads ih =>
    rw [List.replicate_succ']
    exact ih.snoc (act_padding control ceLength tbLength _ true)

theorem Reads.controls {xs : List Subheader} (h : Reads control ceLength tbLength xs)
    {ces : List ℕ} (hpad : ∀ c ∈ ces, c ≠ shortPaddingLcid)
    (hfew : (xs.filterMap Subheader.control?).length + ces.length ≤ maxNumCe)
    (hok : ∀ before lcid, before ++ [lcid] <+: ces →
      control (.atControl ceLength (xs ++ before.map .fixed) lcid) true lcid =
        .ok (ceLength lcid)) :
    Reads control ceLength tbLength (xs ++ ces.map .fixed) := by
  induction ces using List.reverseRecOn with
  | nil => simpa using h
  | append_singleton ces lcid ih =>
    have hsub : ces <+: ces ++ [lcid] := List.prefix_append _ _
    simp only [List.length_append, List.length_singleton] at hfew
    have hces := ih (fun c hc ↦ hpad c (List.mem_append_left _ hc)) (by omega)
      (fun before c hb ↦ hok before c (hb.trans hsub))
    rw [List.map_append, ← List.append_assoc]
    refine hces.snoc (act_control tbLength (hpad lcid (by simp)) ?_ (hok ces lcid (List.prefix_refl _)))
    have hlen := List.length_filterMap_le Subheader.control? (ces.map Subheader.fixed)
    rw [List.length_map] at hlen
    rw [List.filterMap_append, List.length_append]
    omega

theorem Reads.sdus {xs : List Subheader} (h : Reads control ceLength tbLength xs)
    {sdus : List (ℕ × ℕ)}
    (hfew : (xs.filterMap Subheader.sdu?).length + sdus.length ≤ nbRbMax) :
    Reads control ceLength tbLength (xs ++ sdus.map (fun sdu ↦ .sdu sdu.1 sdu.2)) := by
  induction sdus using List.reverseRecOn with
  | nil => simpa using h
  | append_singleton sdus sdu ih =>
    simp only [List.length_append, List.length_singleton] at hfew
    rw [List.map_append, ← List.append_assoc]
    refine (ih (by omega)).snoc (act_sdu ?_)
    have hlen := List.length_filterMap_le Subheader.sdu?
      (sdus.map (fun sdu ↦ Subheader.sdu sdu.1 sdu.2))
    rw [List.length_map] at hlen
    rw [List.filterMap_append, List.length_append]
    omega

theorem filterMap_front (pads : ℕ) {ces : List ℕ} (hpad : ∀ c ∈ ces, c ≠ shortPaddingLcid) :
    (frontItems pads ces).filterMap Subheader.control? = ces ∧
      (frontItems pads ces).filterMap Subheader.sdu? = [] ∧
      (frontItems pads ces).countP Subheader.isPadding = pads := by
  have hnone : (List.replicate pads (Subheader.fixed shortPaddingLcid)).filterMap
      Subheader.control? = [] := by simp [Subheader.control?]
  have hces : (ces.map Subheader.fixed).filterMap Subheader.control? = ces ∧
      (ces.map Subheader.fixed).countP Subheader.isPadding = 0 := by
    induction ces with
    | nil => exact ⟨rfl, rfl⟩
    | cons c ces ih =>
      obtain ⟨hc, hpad⟩ := List.forall_mem_cons.mp hpad
      obtain ⟨h₁, h₂⟩ := ih hpad
      refine ⟨?_, ?_⟩
      · rw [List.map_cons, List.filterMap_cons_some (b := c) (by simp [Subheader.control?, hc]), h₁]
      · rw [List.map_cons, List.countP_cons, h₂]
        simp [Subheader.isPadding, hc]
  have hsdus : (ces.map Subheader.fixed).filterMap Subheader.sdu? = [] := by
    rw [List.filterMap_map, List.filterMap_eq_nil_iff]
    exact fun _ _ ↦ rfl
  have hpads : (List.replicate pads (Subheader.fixed shortPaddingLcid)).filterMap
      Subheader.sdu? = [] := by
    rw [List.filterMap_eq_nil_iff]
    intro x hx
    rw [List.eq_of_mem_replicate hx]
    rfl
  have hcount : (List.replicate pads (Subheader.fixed shortPaddingLcid)).countP
      Subheader.isPadding = pads := by
    rw [List.countP_replicate]
    rfl
  unfold frontItems
  rw [List.filterMap_append, List.filterMap_append, List.countP_append, hnone, hces.1, hces.2,
    hsdus, hpads, hcount]
  exact ⟨rfl, rfl, rfl⟩

theorem filterMap_sdus (sdus : List (ℕ × ℕ)) :
    (sduItems sdus).filterMap Subheader.control? = [] ∧
      (sduItems sdus).filterMap Subheader.sdu? = sdus.map (fun sdu ↦ (sdu.1, sdu.2 % 32768)) ∧
      (sduItems sdus).countP Subheader.isPadding = 0 := by
  induction sdus with
  | nil => exact ⟨rfl, rfl, rfl⟩
  | cons sdu sdus ih =>
    obtain ⟨h₁, h₂, h₃⟩ := ih
    unfold sduItems at h₁ h₂ h₃ ⊢
    exact ⟨h₁, congrArg (List.cons (sdu.1, sdu.2 % 32768)) h₂, by
      rw [List.map_cons, List.countP_cons, h₃]
      rfl⟩

variable (ceLength) in
theorem after_front (pads : ℕ) {ces : List ℕ} (hpad : ∀ c ∈ ces, c ≠ shortPaddingLcid)
    (sdus : List (ℕ × ℕ)) :
    ParseState.after ceLength (frontItems pads ces ++ sduItems sdus) =
      { ptr := ((frontItems pads ces ++ sduItems sdus).flatMap (Subheader.encode true)).length
        ces := ces
        lcids := sdus.map Prod.fst
        lengths := sdus.map (fun sdu ↦ sdu.2 % 32768)
        ceLen := uint16 (ces.map ceLength).sum
        numPadding := pads } := by
  obtain ⟨h₁, h₂, h₃⟩ := filterMap_front pads hpad
  obtain ⟨k₁, k₂, k₃⟩ := filterMap_sdus sdus
  simp only [ParseState.after, List.filterMap_append, List.countP_append, h₁, h₂, h₃, k₁, k₂, k₃]
  simp [Function.comp_def]

variable (ceLength) in
theorem atControl_front (pads : ℕ) {before : List ℕ} (hpad : ∀ c ∈ before, c ≠ shortPaddingLcid)
    (lcid : ℕ) :
    (ParseState.atControl ceLength (frontItems pads before) lcid).ces = before ++ [lcid] ∧
      (ParseState.atControl ceLength (frontItems pads before) lcid).lcids = [] ∧
      (ParseState.atControl ceLength (frontItems pads before) lcid).numPadding = pads := by
  have hafter := after_front ceLength pads hpad []
  rw [show frontItems pads before ++ sduItems [] = frontItems pads before from
    List.append_nil _] at hafter
  simp only [ParseState.atControl, hafter]
  exact ⟨trivial, rfl, trivial⟩

/-- The lengths that a parser finds: the last SDU of a header without final
padding gets what the rest leaves of the transport block. -/
def readLengths (tbLength header payload : ℕ) (sdus : List (ℕ × ℕ)) (postPadding : ℕ) : List ℕ :=
  if 0 < postPadding then sdus.map (fun sdu ↦ sdu.2 % 32768)
  else if sdus = [] then []
  else
    let explicit : List ℕ := sdus.dropLast.map (fun sdu ↦ sdu.2 % 32768)
    explicit ++ [uint16 (tbLength - header - payload - explicit.sum)]

theorem readLengths_exact {tbLength header payload extra : ℕ} {sdus : List (ℕ × ℕ)}
    {postPadding : ℕ} (hlen : ∀ sdu ∈ sdus, sdu.2 < 32768) (hextra : postPadding = 0 → extra = 0)
    (htb : tbLength = header + payload + (sdus.map Prod.snd).sum + extra) :
    readLengths tbLength header payload sdus postPadding = sdus.map Prod.snd := by
  have hmod : ∀ l : List (ℕ × ℕ), (∀ sdu ∈ l, sdu.2 < 32768) →
      l.map (fun sdu ↦ sdu.2 % 32768) = l.map Prod.snd := fun l hl ↦
    List.map_congr_left (fun sdu hsdu ↦ Nat.mod_eq_of_lt (hl sdu hsdu))
  unfold readLengths
  split
  · exact hmod sdus hlen
  · next hpost =>
    rcases sdus.eq_nil_or_concat' with rfl | ⟨front, sdu, rfl⟩
    · rfl
    · have hfront : ∀ x ∈ front, x.2 < 32768 := fun x hx ↦ hlen x (List.mem_append_left _ hx)
      have hlast := hlen sdu (by simp)
      have hzero := hextra (by omega)
      simp only [List.map_append, List.map_cons, List.map_nil, List.sum_append, List.sum_cons,
        List.sum_nil] at htb
      have hleft : uint16 (tbLength - header - payload - (front.map Prod.snd).sum) = sdu.2 := by
        unfold uint16
        omega
      rw [if_neg (by simp), List.dropLast_concat, hmod front hfront]
      dsimp only
      rw [hleft, List.map_append]
      rfl

def ParseState.found (ceLength : ℕ → ℕ) (tbLength pads : ℕ) (ces : List ℕ)
    (sdus : List (ℕ × ℕ)) (postPadding : ℕ) : ParseState :=
  let header := (chain Subheader.encode (headerItems pads ces sdus postPadding)).length
  { ptr := header
    ces := ces
    lcids := sdus.map Prod.fst
    lengths := readLengths tbLength header (ces.map ceLength).sum sdus postPadding
    ceLen := uint16 (ces.map ceLength).sum
    numPadding := pads + if 0 < postPadding then 1 else 0 }

/-- The checks a header has to pass: the arrays hold its elements, and each
control element is accepted where it stands. -/
structure Accepted (control : ParseState → Bool → ℕ → Except ParseError ℕ) (ceLength : ℕ → ℕ)
    (pads : ℕ) (ces : List ℕ) (sdus : List (ℕ × ℕ)) (postPadding : ℕ) : Prop where
  ne_nil : headerItems pads ces sdus postPadding ≠ []
  notPadding : ∀ c ∈ ces, c ≠ shortPaddingLcid
  fewCes : ces.length ≤ maxNumCe
  fewSdus : sdus.length ≤ nbRbMax
  control : ∀ before lcid more, before ++ [lcid] <+: ces →
    (more = false → before ++ [lcid] = ces ∧ sdus = [] ∧ postPadding = 0) →
    control (.atControl ceLength (frontItems pads before) lcid) more lcid = .ok (ceLength lcid)

namespace Accepted

variable {pads : ℕ} {ces : List ℕ} {sdus : List (ℕ × ℕ)} {postPadding : ℕ}

variable (tbLength) in
theorem reads_front (h : Accepted control ceLength pads ces sdus postPadding) {front : List ℕ}
    (hfront : front <+: ces) : Reads control ceLength tbLength (frontItems pads front) := by
  have hlen := hfront.length_le.trans h.fewCes
  have hnone : (List.replicate pads (Subheader.fixed shortPaddingLcid)).filterMap
      Subheader.control? = [] := by simp [Subheader.control?]
  refine (Reads.pads control ceLength tbLength pads).controls
    (fun c hc ↦ h.notPadding c (hfront.subset hc)) ?_ ?_
  · rw [hnone]
    simpa using hlen
  · exact fun before lcid hb ↦ h.control before lcid true (hb.trans hfront) (by simp)

variable (tbLength) in
theorem reads (h : Accepted control ceLength pads ces sdus postPadding) {front : List (ℕ × ℕ)}
    (hfront : front.length ≤ sdus.length) :
    Reads control ceLength tbLength (frontItems pads ces ++ sduItems front) := by
  apply (h.reads_front tbLength (List.prefix_refl ces)).sdus
  have hnone := (filterMap_front pads h.notPadding).2.1
  have hfew := h.fewSdus
  rw [hnone]
  simp only [List.length_nil]
  omega

theorem header_length_snoc (xs : List Subheader) (x : Subheader) :
    (chain Subheader.encode (xs ++ [x])).length =
      (xs.flatMap (Subheader.encode true)).length + 1 := by
  rw [chain_snoc]
  simp [Subheader.encode]

variable (tbLength) in
theorem run_padded (h : Accepted control ceLength pads ces sdus postPadding)
    (hpost : 0 < postPadding) :
    run (fun s more x ↦ x.act control tbLength s more)
      (headerItems pads ces sdus postPadding) .start =
      .ok (.found ceLength tbLength pads ces sdus postPadding) := by
  have hitems : headerItems pads ces sdus postPadding =
      (frontItems pads ces ++ sduItems sdus) ++ [.fixed shortPaddingLcid] := by
    simp [headerItems, hpost]
  have hlast := act_padding control ceLength tbLength (frontItems pads ces ++ sduItems sdus) false
  have hrun := (h.reads tbLength le_rfl).run (List.cons_ne_nil (.fixed shortPaddingLcid) [])
  rw [hitems]
  refine hrun.trans (hlast.trans (congrArg Except.ok ?_))
  rw [after_padding, after_front ceLength pads h.notPadding]
  simp only [ParseState.found, readLengths, hpost, hitems, header_length_snoc, if_true]

variable (tbLength) in
theorem run_control (h : Accepted control ceLength pads ces [] 0) :
    run (fun s more x ↦ x.act control tbLength s more) (headerItems pads ces [] 0) .start =
      .ok (.found ceLength tbLength pads ces [] 0) := by
  have hafter := after_front ceLength pads h.notPadding []
  have hitems : headerItems pads ces [] 0 = frontItems pads ces := by
    simp [headerItems, sduItems]
  have hsdus : frontItems pads ces ++ sduItems [] = frontItems pads ces := by simp [sduItems]
  rw [hsdus] at hafter
  have hfound : ∀ (front : List Subheader) (lcid : ℕ),
      frontItems pads ces = front ++ [Subheader.fixed lcid] →
      ParseState.after ceLength (front ++ [Subheader.fixed lcid]) =
        .found ceLength tbLength pads ces [] 0 := by
    intro front lcid hsplit
    have hone : (Subheader.encode true (.fixed lcid)).length = 1 := rfl
    rw [← hsplit, hafter]
    simp [ParseState.found, readLengths, hitems, hsplit, header_length_snoc, hone]
  rcases ces.eq_nil_or_concat' with rfl | ⟨before, lcid, rfl⟩
  · obtain ⟨n, hn⟩ : ∃ n, pads = n + 1 := by
      have := headerItems_ne_nil.mp h.ne_nil
      exact ⟨pads - 1, by simp at this; omega⟩
    have hsplit : frontItems pads [] =
        List.replicate n (.fixed shortPaddingLcid) ++ [.fixed shortPaddingLcid] := by
      simp [frontItems, hn, List.replicate_succ']
    have hlast := act_padding control ceLength tbLength
      (List.replicate n (.fixed shortPaddingLcid)) false
    have hrun := (Reads.pads control ceLength tbLength n).run
      (List.cons_ne_nil (.fixed shortPaddingLcid) [])
    rw [hitems, hsplit]
    exact hrun.trans (hlast.trans (congrArg Except.ok (hfound _ _ hsplit)))
  · have hsplit : frontItems pads (before ++ [lcid]) = frontItems pads before ++ [.fixed lcid] := by
      simp [frontItems]
    have hok := h.control before lcid false (List.prefix_refl _) (fun _ ↦ ⟨rfl, rfl, rfl⟩)
    have hfew : ((frontItems pads before).filterMap Subheader.control?).length < maxNumCe := by
      have hlen := h.fewCes
      rw [(filterMap_front pads (fun c hc ↦ h.notPadding c (List.mem_append_left _ hc))).1]
      simp only [List.length_append, List.length_singleton] at hlen
      omega
    have hlast := act_control tbLength (h.notPadding lcid (by simp)) hfew hok
    have hrun := (h.reads_front tbLength (List.prefix_append before [lcid])).run
      (List.cons_ne_nil (.fixed lcid) [])
    rw [hitems, hsplit]
    exact hrun.trans (hlast.trans (congrArg Except.ok (hfound _ _ hsplit)))

variable (tbLength) in
theorem run_sdu {sdu : ℕ × ℕ} (h : Accepted control ceLength pads ces (sdus ++ [sdu]) 0) :
    run (fun s more x ↦ x.act control tbLength s more)
      (headerItems pads ces (sdus ++ [sdu]) 0) .start =
      .ok (.found ceLength tbLength pads ces (sdus ++ [sdu]) 0) := by
  have hitems : headerItems pads ces (sdus ++ [sdu]) 0 =
      (frontItems pads ces ++ sduItems sdus) ++ [.sdu sdu.1 sdu.2] := by
    simp [headerItems, sduItems]
  have hfew : ((frontItems pads ces ++ sduItems sdus).filterMap Subheader.sdu?).length <
      nbRbMax := by
    have hlen := h.fewSdus
    rw [List.filterMap_append, (filterMap_front pads h.notPadding).2.1, (filterMap_sdus sdus).2.1]
    simp only [List.length_append, List.length_singleton, List.length_map, List.length_nil] at hlen ⊢
    omega
  have hlast := act_last_sdu control ceLength tbLength sdu.1 sdu.2 hfew
  have hshort : sdus.length ≤ (sdus ++ [sdu]).length := by simp
  have hrun := (h.reads tbLength hshort).run (List.cons_ne_nil (.sdu sdu.1 sdu.2) [])
  rw [hitems]
  refine hrun.trans (hlast.trans (congrArg Except.ok ?_))
  rw [after_front ceLength pads h.notPadding]
  have hlength : ∀ header payload total : ℕ,
      uint16 (tbLength - (header + 1) - (uint16 payload : ℕ) - total) =
        uint16 (tbLength - (header + 1 : ℕ) - payload - total) := by
    intro header payload total
    unfold uint16
    omega
  simp only [ParseState.found, readLengths, hitems, header_length_snoc, implicitLength, hlength]
  simp

/-- On an accepted header the parser finds what the header says. -/
theorem run_eq_found (h : Accepted control ceLength pads ces sdus postPadding) (tbLength : ℕ) :
    run (fun s more x ↦ x.act control tbLength s more)
      (headerItems pads ces sdus postPadding) .start =
      .ok (.found ceLength tbLength pads ces sdus postPadding) := by
  rcases Nat.eq_zero_or_pos postPadding with rfl | hpost
  · rcases sdus.eq_nil_or_concat' with rfl | ⟨front, sdu, rfl⟩
    · exact h.run_control tbLength
    · exact h.run_sdu tbLength
  · exact h.run_padded tbLength hpost

end Accepted

end After

theorem parseSubheaders_found {sduLimit : ℕ} (hlimit : sduLimit ≤ 28)
    {control : ParseState → Bool → ℕ → Except ParseError ℕ} {ceLength : ℕ → ℕ} {pads : ℕ}
    {ces : List ℕ} {sdus : List (ℕ × ℕ)} {postPadding : ℕ}
    (h : Accepted control ceLength pads ces sdus postPadding)
    (hces : ∀ c ∈ ces, sduLimit ≤ c ∧ c < 32) (hsdus : ∀ sdu ∈ sdus, sdu.1 < sduLimit)
    {mem : ℕ → ℕ} (tbLength : ℕ)
    (hmem : Stores mem 0 (chain Subheader.encode (headerItems pads ces sdus postPadding)))
    (htb : (chain Subheader.encode (headerItems pads ces sdus postPadding)).length ≤ tbLength) :
    parseSubheaders sduLimit control mem tbLength =
      .ok (.found ceLength tbLength pads ces sdus postPadding) := by
  refine (parseSubheaders_chain hlimit h.ne_nil ?_ hmem htb).trans (h.run_eq_found tbLength)
  have hpad : Subheader.Valid sduLimit (.fixed shortPaddingLcid) :=
    ⟨hlimit.trans (by decide), by decide⟩
  intro x hx
  simp only [headerItems, frontItems, sduItems, List.mem_append, List.mem_map] at hx
  rcases hx with ((hx | ⟨c, hc, rfl⟩) | ⟨sdu, hsdu, rfl⟩) | hx
  · rw [List.eq_of_mem_replicate hx]
    exact hpad
  · exact hces c hc
  · exact hsdus sdu hsdu
  · split at hx
    · rw [List.mem_singleton.mp hx]
      exact hpad
    · simp at hx

end EdgeSlice.Mac
