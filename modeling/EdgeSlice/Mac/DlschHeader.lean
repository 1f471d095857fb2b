import EdgeSlice.Mac.SubheaderParser
import Mathlib.Data.List.OfFn

namespace EdgeSlice.Mac

open Chain

def sduLengths (sdus : List (ℕ × List ℕ)) : List (ℕ × ℕ) :=
  sdus.map (fun sdu ↦ (sdu.1, sdu.2.length))

def sduHeaderLen (length : ℕ) : ℕ := if length < 128 then 2 else 3

theorem sduHeaderLen_bounds (length : ℕ) :
    2 ≤ sduHeaderLen length ∧ sduHeaderLen length ≤ 3 := by
  unfold sduHeaderLen
  split <;> decide

def headerLen (sdus : List (ℕ × List ℕ)) : ℕ :=
  (sdus.map (fun sdu ↦ sduHeaderLen sdu.2.length)).sum

theorem sduHeaderLen_eq_two (length : ℕ) : sduHeaderLen length = 2 ↔ length < 128 := by
  unfold sduHeaderLen
  split <;> omega

def sduBytes (sdus : List (ℕ × List ℕ)) : ℕ := (sdus.map (fun sdu ↦ sdu.2.length)).sum

@[simp] theorem headerLen_nil : headerLen [] = 0 := rfl

@[simp] theorem headerLen_cons (sdu : ℕ × List ℕ) (sdus : List (ℕ × List ℕ)) :
    headerLen (sdu :: sdus) = sduHeaderLen sdu.2.length + headerLen sdus := by
  simp [headerLen]

@[simp] theorem headerLen_append (sdus sdus' : List (ℕ × List ℕ)) :
    headerLen (sdus ++ sdus') = headerLen sdus + headerLen sdus' := by
  simp [headerLen]

/-- Two bytes for each subheader are enough only for short SDUs. -/
theorem headerLen_short (sdus : List (ℕ × List ℕ)) : 2 * sdus.length ≤ headerLen sdus ∧
    (headerLen sdus = 2 * sdus.length ↔ ∀ sdu ∈ sdus, sdu.2.length < 128) := by
  induction sdus with
  | nil => simp
  | cons sdu sdus ih =>
    obtain ⟨hle, hiff⟩ := ih
    have hb := sduHeaderLen_bounds sdu.2.length
    rw [headerLen_cons, List.length_cons, List.forall_mem_cons, ← hiff, ← sduHeaderLen_eq_two]
    omega

@[simp] theorem sduBytes_nil : sduBytes [] = 0 := rfl

@[simp] theorem sduBytes_cons (sdu : ℕ × List ℕ) (sdus : List (ℕ × List ℕ)) :
    sduBytes (sdu :: sdus) = sdu.2.length + sduBytes sdus := by
  simp [sduBytes]

@[simp] theorem sduBytes_append (sdus sdus' : List (ℕ × List ℕ)) :
    sduBytes (sdus ++ sdus') = sduBytes sdus + sduBytes sdus' := by
  simp [sduBytes]

theorem padCount_of_le {n : ℕ} (h : n ≤ 2) : HeaderState.padCount n = n := by
  unfold HeaderState.padCount
  split
  · omega
  · split <;> omega

theorem front_length (pads : ℕ) (ces : List ℕ) :
    ((frontItems pads ces).flatMap (Subheader.encode true)).length = pads + ces.length := by
  have hone : ∀ ces : List ℕ, ((ces.map Subheader.fixed).flatMap (Subheader.encode true)).length =
      ces.length := by
    intro ces
    induction ces with
    | nil => rfl
    | cons c ces ih =>
      simp only [List.map_cons, List.flatMap_cons, List.length_append, ih, List.length_cons]
      exact Nat.add_comm 1 _
  have hpads : List.replicate pads (Subheader.fixed shortPaddingLcid) =
      (List.replicate pads shortPaddingLcid).map .fixed := List.map_replicate.symm
  rw [frontItems, List.flatMap_append, List.length_append, hone, hpads, hone, List.length_replicate]

theorem sduItems_length (sdus : List (ℕ × List ℕ)) :
    ((sduItems (sduLengths sdus)).flatMap (Subheader.encode true)).length = headerLen sdus := by
  induction sdus with
  | nil => rfl
  | cons sdu sdus ih =>
    have hone : (Subheader.encode true (.sdu sdu.1 sdu.2.length)).length =
        sduHeaderLen sdu.2.length := by
      simp only [Subheader.encode, Subheader.lengthField, sduHeaderLen]
      split <;> rfl
    have hcons : sduItems (sduLengths (sdu :: sdus)) =
        .sdu sdu.1 sdu.2.length :: sduItems (sduLengths sdus) := rfl
    rw [hcons, List.flatMap_cons, List.length_append, hone, ih, headerLen_cons]

theorem padded_length (pads : ℕ) (ces : List ℕ) (sdus : List (ℕ × List ℕ)) {postPadding : ℕ}
    (hpost : 0 < postPadding) :
    (chain Subheader.encode (headerItems pads ces (sduLengths sdus) postPadding)).length =
      pads + ces.length + headerLen sdus + 1 := by
  rw [headerItems, if_pos hpost, Accepted.header_length_snoc, List.flatMap_append,
    List.length_append, front_length, sduItems_length]

theorem bare_length (pads : ℕ) (ces : List ℕ) (sdus : List (ℕ × List ℕ)) (last : ℕ × List ℕ) :
    (chain Subheader.encode (headerItems pads ces (sduLengths (sdus ++ [last])) 0)).length =
      pads + ces.length + headerLen sdus + 1 := by
  have hitems : headerItems pads ces (sduLengths (sdus ++ [last])) 0 =
      (frontItems pads ces ++ sduItems (sduLengths sdus)) ++ [.sdu last.1 last.2.length] := by
    simp [headerItems, sduItems, sduLengths]
  rw [hitems, Accepted.header_length_snoc, List.flatMap_append, List.length_append, front_length,
    sduItems_length]

theorem control_length (pads : ℕ) (ces : List ℕ) :
    (chain Subheader.encode (headerItems pads ces [] 0)).length = pads + ces.length := by
  have hitems : headerItems pads ces [] 0 = frontItems pads ces := by
    simp [headerItems, sduItems]
  have hlast : ∀ xs : List Subheader, (∀ x ∈ xs, (Subheader.encode true x).length = 1) →
      (chain Subheader.encode xs).length = (xs.flatMap (Subheader.encode true)).length := by
    intro xs hxs
    rcases xs.eq_nil_or_concat' with rfl | ⟨front, x, rfl⟩
    · rfl
    · rw [Accepted.header_length_snoc, List.flatMap_append, List.length_append,
        List.flatMap_singleton, hxs x (by simp)]
  rw [hitems, hlast, front_length]
  intro x hx
  rcases List.mem_append.mp hx with hx | hx
  · rw [List.eq_of_mem_replicate hx]
    rfl
  · obtain ⟨c, -, rfl⟩ := List.mem_map.mp hx
    rfl

end EdgeSlice.Mac

namespace EdgeSlice.Mac

open Function ByteMemory Chain

def ueContRes : ℕ := 28

def timingAdvCmd : ℕ := 29

def drxCmd : ℕ := 30

/-- The octet of a timing advance command: six bits of the shifted value. -/
def timingAdvanceOctet (timingAdvance : ℤ) : ℕ := ((timingAdvance + 31) % 64).toNat

/-- `generate_dlsch_header`: the buffer and the returned length. An SDU is its
LCID and its length; `drx` is 255 when there is no DRX command. -/
def generateDlschHeader (buf : ℕ → ℕ) (sdus : List (ℕ × ℕ)) (drx : ℕ) (timingAdvance : ℤ)
    (ueContResId : Option (Fin 6 → ℕ)) (shortPadding postPadding : ℕ) : (ℕ → ℕ) × ℕ :=
  let s := HeaderState.padFront shortPadding ⟨buf, 0, false, 0, []⟩
  let s := if drx ≠ 255 then s.controlElement drxCmd [] else s
  let s := if timingAdvance ≠ 0
    then s.controlElement timingAdvCmd [timingAdvanceOctet timingAdvance] else s
  let s := match ueContResId with
    | some id => s.controlElement ueContRes (List.ofFn id)
    | none => s
  (s.putSdus sdus).finish postPadding

def dlschElements (drx : ℕ) (timingAdvance : ℤ) (ueContResId : Option (Fin 6 → ℕ)) :
    List (ℕ × List ℕ) :=
  (if drx ≠ 255 then [(drxCmd, [])] else []) ++
    (if timingAdvance ≠ 0 then [(timingAdvCmd, [timingAdvanceOctet timingAdvance])] else []) ++
    match ueContResId with
    | some id => [(ueContRes, List.ofFn id)]
    | none => []

def dlschItems (sdus : List (ℕ × ℕ)) (drx : ℕ) (timingAdvance : ℤ)
    (ueContResId : Option (Fin 6 → ℕ)) (shortPadding postPadding : ℕ) : List Subheader :=
  headerItems (HeaderState.padCount shortPadding)
    ((dlschElements drx timingAdvance ueContResId).map Prod.fst) sdus postPadding

/-- The octets of a downlink header: its subheaders and the payloads of its
control elements. -/
def dlschOctets (sdus : List (ℕ × ℕ)) (drx : ℕ) (timingAdvance : ℤ)
    (ueContResId : Option (Fin 6 → ℕ)) (shortPadding postPadding : ℕ) : List ℕ :=
  chain Subheader.encode (dlschItems sdus drx timingAdvance ueContResId shortPadding postPadding) ++
    (dlschElements drx timingAdvance ueContResId).flatMap Prod.snd

/-- The generator writes those octets, unless there is nothing to write. -/
theorem generateDlschHeader_spec (buf : ℕ → ℕ) (sdus : List (ℕ × ℕ)) (drx : ℕ)
    (timingAdvance : ℤ) (ueContResId : Option (Fin 6 → ℕ)) (shortPadding postPadding : ℕ)
    (hne : dlschItems sdus drx timingAdvance ueContResId shortPadding postPadding ≠ []) :
    Stores (generateDlschHeader buf sdus drx timingAdvance ueContResId shortPadding
        postPadding).1 0
        (dlschOctets sdus drx timingAdvance ueContResId shortPadding postPadding) ∧
      (generateDlschHeader buf sdus drx timingAdvance ueContResId shortPadding postPadding).2 =
        uint8 (dlschOctets sdus drx timingAdvance ueContResId shortPadding postPadding).length := by
  have hdrx := (HeaderState.Elements.start buf shortPadding).optional (drx ≠ 255) drxCmd []
  have hta := hdrx.optional (timingAdvance ≠ 0) timingAdvCmd [timingAdvanceOctet timingAdvance]
  rw [List.nil_append] at hta
  cases ueContResId with
  | none =>
    rw [← List.append_nil (_ ++ _)] at hta
    exact hta.finish sdus postPadding hne
  | some id => exact (hta.controlElement ueContRes (List.ofFn id)).finish sdus postPadding hne

/-- The checks `parse_header` makes on a control element, and its payload
length. `num_cont_res` counts the contention resolutions seen before. -/
def dlControl (s : ParseState) (more : Bool) (lcid : ℕ) : Except ParseError ℕ :=
  if lcid = timingAdvCmd then .ok 1
  else if lcid = ueContRes then
    if 1 < s.ces.count ueContRes then .error .nullPointer
    else if more = false ∧ (0 < s.lcids.length ∨ 1 < s.ces.length ∨ 0 < s.numPadding) then
      .error .nullPointer
    else .ok 6
  else .ok 0

def dlCeLength (lcid : ℕ) : ℕ :=
  if lcid = timingAdvCmd then 1 else if lcid = ueContRes then 6 else 0

def parseHeader (mem : ℕ → ℕ) (tbLength : ℕ) : Except ParseError ParseState :=
  parseSubheaders ueContRes dlControl mem tbLength

/-- The part of `UE_mac_inst` that `ue_send_sdu` reads and writes. -/
structure UeMac where
  raActive : Bool
  raContentionResolutionTimerActive : Bool
  ccchPdu : ℕ → ℕ

/-- What `ue_send_sdu` hands to the other layers, in order. -/
inductive DlschIndication
  | contentionResolution (id : List ℕ)
  | raFailed
  | raSucceeded
  | processTimingAdvance (octet : ℕ)
  | drxCommand
  | ccch (data : List ℕ)
  | rlc (lcid : ℕ) (data : List ℕ)
  | unknownLcid (lcid : ℕ)
  deriving DecidableEq

structure CeWalk where
  mac : UeMac
  ptr : ℕ
  out : List DlschIndication
  returned : Bool

/-- The loop over the control elements; `i` is its index, which the comparison
of the contention resolution reuses. -/
def walkCes (mem : ℕ → ℕ) (ces : List ℕ) : ℕ → ℕ → CeWalk → CeWalk
  | 0, _, w => w
  | fuel + 1, i, w =>
    match ces[i]? with
    | none => w
    | some ce =>
      if ce = ueContRes then
        let id := load mem w.ptr 6
        if w.mac.raActive then
          let mac := { w.mac with raActive := false, raContentionResolutionTimerActive := false }
          if id = load w.mac.ccchPdu 3 6 then
            walkCes mem ces fuel 7
              ⟨mac, w.ptr + 6, w.out ++ [.contentionResolution id, .raSucceeded], false⟩
          else ⟨mac, w.ptr, w.out ++ [.contentionResolution id, .raFailed], true⟩
        else walkCes mem ces fuel (i + 1)
          { w with ptr := w.ptr + 6, out := w.out ++ [.contentionResolution id] }
      else if ce = timingAdvCmd then
        walkCes mem ces fuel (i + 1)
          { w with ptr := w.ptr + 1, out := w.out ++ [.processTimingAdvance (mem w.ptr)] }
      else if ce = drxCmd then
        walkCes mem ces fuel (i + 1) { w with ptr := w.ptr + 1, out := w.out ++ [.drxCommand] }
      else walkCes mem ces fuel (i + 1) w

def deliverSdus (mem : ℕ → ℕ) : List (ℕ × ℕ) → ℕ → List DlschIndication
  | [], _ => []
  | (lcid, length) :: sdus, ptr =>
    (if lcid = 0 then .ccch (load mem ptr length)
      else if lcid = 1 ∨ lcid = 2 then .rlc lcid (load mem ptr length)
      else if lcid < nbRbMax ∧ 2 < lcid then .rlc lcid (load mem ptr length)
      else .unknownLcid lcid) :: deliverSdus mem sdus (ptr + length)

/-- `ue_send_sdu`; `none` is undefined behaviour. -/
def ueSendSdu (mac : UeMac) (mem : ℕ → ℕ) (sduLen : ℕ) : Option (UeMac × List DlschIndication) :=
  match parseHeader mem sduLen with
  | .error .nullPointer => some (mac, [])
  | .error _ => none
  | .ok s =>
    let w := walkCes mem s.ces s.ces.length 0 ⟨mac, s.ptr, [], false⟩
    some (w.mac, if w.returned then w.out
      else w.out ++ deliverSdus mem (s.lcids.zip s.lengths) w.ptr)

end EdgeSlice.Mac
