import EdgeSlice.Mac.SubheaderParser
import Mathlib.Data.Fin.VecNotation

namespace EdgeSlice.Mac

open Function ByteMemory Chain

def extendedPowerHeadroom : ℕ := 25

def powerHeadroomLcid : ℕ := 26

def crntiLcid : ℕ := 27

def truncatedBsrLcid : ℕ := 28

def shortBsrLcid : ℕ := 29

def longBsrLcid : ℕ := 30

/-- `POWER_HEADROOM_CMD`, with its bit fields. -/
structure PowerHeadroomCmd where
  ph : Fin 64
  r : Fin 4

/-- `BSR_SHORT`, also used for a truncated report. -/
structure BsrShort where
  bufferSize : Fin 64
  lcgid : Fin 4

/-- `BSR_LONG`: the buffer sizes of the four logical channel groups. -/
structure BsrLong where
  bufferSize0 : Fin 64
  bufferSize1 : Fin 64
  bufferSize2 : Fin 64
  bufferSize3 : Fin 64

def PowerHeadroomCmd.octets (p : PowerHeadroomCmd) : List ℕ := [p.ph.val + 64 * p.r.val]

def BsrShort.octets (b : BsrShort) : List ℕ := [b.bufferSize.val + 64 * b.lcgid.val]

/-- The three octets of a long report, as `generate_ulsch_header` packs them. -/
def BsrLong.octets (b : BsrLong) : List ℕ :=
  [b.bufferSize0.val <<< 2 ||| (b.bufferSize1.val &&& 0x30) >>> 4,
    (b.bufferSize1.val &&& 0x0F) <<< 4 ||| (b.bufferSize2.val &&& 0x3C) >>> 2,
    (b.bufferSize2.val &&& 0x03) <<< 2 ||| (b.bufferSize3.val &&& 0x3F)]

/-- A C-RNTI in the memory of a little-endian host. -/
def crntiOctets (crnti : Fin 65536) : List ℕ := [crnti.val % 256, crnti.val / 256]

/-- The buffer status report that a header carries, with its precedence. -/
def bsrElement (truncatedBsr shortBsr : Option BsrShort) (longBsr : Option BsrLong) :
    Option (ℕ × List ℕ) :=
  match truncatedBsr, shortBsr, longBsr with
  | some b, _, _ => some (truncatedBsrLcid, b.octets)
  | none, some b, _ => some (shortBsrLcid, b.octets)
  | none, none, some b => some (longBsrLcid, b.octets)
  | none, none, none => none

/-- The last SDU of a header without final padding: only its LCID is written. -/
def HeaderState.putLastSdu (lcid : ℕ) (s : HeaderState) : HeaderState :=
  let s := if s.firstElement then s.extend s.lastSize else s
  { s with buf := store s.buf s.ptr [lcid % 32] }

/-- The loop over the SDUs in `generate_ulsch_header`; `bare` is its test on the
paddings. -/
def HeaderState.putUlschSdus (bare : Prop) [Decidable bare] :
    List (ℕ × ℕ) → HeaderState → HeaderState
  | [], s => s
  | [sdu], s =>
    if bare then s.putLastSdu sdu.1 else (s.link s.lastSize).putSdu sdu.1 sdu.2
  | sdu :: next :: sdus, s =>
    putUlschSdus bare (next :: sdus) ((s.link s.lastSize).putSdu sdu.1 sdu.2)

def HeaderState.optionalElement (element : Option (ℕ × List ℕ)) (s : HeaderState) : HeaderState :=
  match element with
  | some (lcid, payload) => s.controlElement lcid payload
  | none => s

/-- `generate_ulsch_header`: the buffer and the returned length. -/
def generateUlschHeader (buf : ℕ → ℕ) (shortPadding : ℕ) (sdus : List (ℕ × ℕ))
    (powerHeadroom : Option PowerHeadroomCmd) (crnti : Option (Fin 65536))
    (truncatedBsr shortBsr : Option BsrShort) (longBsr : Option BsrLong) (postPadding : ℕ) :
    (ℕ → ℕ) × ℕ :=
  let s := HeaderState.padFront shortPadding ⟨buf, 0, false, 0, []⟩
  let s := s.optionalElement (powerHeadroom.map (fun p ↦ (powerHeadroomLcid, p.octets)))
  let s := s.optionalElement (crnti.map (fun c ↦ (crntiLcid, crntiOctets c)))
  let s := s.optionalElement (bsrElement truncatedBsr shortBsr longBsr)
  (s.putUlschSdus (shortPadding ≠ 0 ∨ postPadding = 0) sdus).finish postPadding

def ulschElements (powerHeadroom : Option PowerHeadroomCmd) (crnti : Option (Fin 65536))
    (truncatedBsr shortBsr : Option BsrShort) (longBsr : Option BsrLong) :
    List (ℕ × List ℕ) :=
  (powerHeadroom.map (fun p ↦ (powerHeadroomLcid, p.octets))).toList ++
    (crnti.map (fun c ↦ (crntiLcid, crntiOctets c))).toList ++
    (bsrElement truncatedBsr shortBsr longBsr).toList

def ulschOctets (shortPadding : ℕ) (sdus : List (ℕ × ℕ)) (ces : List (ℕ × List ℕ))
    (postPadding : ℕ) : List ℕ :=
  chain Subheader.encode (headerItems (HeaderState.padCount shortPadding) (ces.map Prod.fst) sdus
    postPadding) ++ ces.flatMap Prod.snd

namespace HeaderState

theorem Elements.optionalElement {s : HeaderState} {pads : ℕ} {ces : List (ℕ × List ℕ)}
    (h : Elements s pads ces) (element : Option (ℕ × List ℕ)) :
    Elements (s.optionalElement element) pads (ces ++ element.toList) := by
  cases element with
  | none => simpa [HeaderState.optionalElement] using h
  | some e => exact h.controlElement e.1 e.2

theorem putUlschSdus_ce (bare : Prop) [Decidable bare] (sdus : List (ℕ × ℕ)) (s : HeaderState) :
    (s.putUlschSdus bare sdus).ce = s.ce := by
  have hput : ∀ (s : HeaderState) (sdu : ℕ × ℕ),
      ((s.link s.lastSize).putSdu sdu.1 sdu.2).ce = s.ce := fun s sdu ↦
    (put_ce (.sdu sdu.1 sdu.2) _).trans (link_ce _ _)
  induction sdus generalizing s with
  | nil => rfl
  | cons sdu sdus ih =>
    cases sdus with
    | nil =>
      simp only [putUlschSdus]
      split
      · unfold putLastSdu
        split <;> rfl
      · exact hput s sdu
    | cons next sdus => exact (ih _).trans (hput s sdu)

theorem putUlschSdus_of_not {bare : Prop} [Decidable bare] (hbare : ¬ bare)
    (sdus : List (ℕ × ℕ)) (s : HeaderState) : s.putUlschSdus bare sdus = s.putSdus sdus := by
  induction sdus generalizing s with
  | nil => rfl
  | cons sdu sdus ih =>
    cases sdus with
    | nil => simp [putUlschSdus, hbare, putSdus]
    | cons next sdus => exact ih _

theorem Represents.putLastSdu {s : HeaderState} {xs : List Subheader} (h : Represents s xs)
    (sdu : ℕ × ℕ) : AtLast (s.putLastSdu sdu.1) (xs ++ [.sdu sdu.1 sdu.2]) := by
  cases h with
  | nil hfirst hptr hsize =>
    refine ⟨?_, ?_⟩
    · simp [HeaderState.putLastSdu, hfirst, hptr, chain, Subheader.encode]
    · simp [HeaderState.putLastSdu, hfirst, hptr, chain, Subheader.encode, store,
        Subheader.lcid]
  | snoc init last hfirst hptr hsize hbuf =>
    obtain ⟨hptr', hfront⟩ := extend_last hptr hsize hbuf
    have hlast : s.putLastSdu sdu.1 = { s.extend s.lastSize with
        buf := store (s.extend s.lastSize).buf (s.extend s.lastSize).ptr [sdu.1 % 32] } := by
      simp [HeaderState.putLastSdu, hfirst]
    rw [hlast]
    refine ⟨?_, ?_⟩
    · rw [chain_snoc, List.length_append, ← hptr']
      rfl
    · rw [chain_snoc, stores_append]
      refine ⟨hfront.store_after ?_, ?_⟩
      · rw [hptr']
        omega
      · rw [Nat.zero_add, ← hptr']
        exact stores_store

theorem Represents.putUlschSdus {bare : Prop} [Decidable bare] (hbare : bare) {s : HeaderState}
    {xs : List Subheader} (h : Represents s xs) {sdus : List (ℕ × ℕ)}
    (hne : xs ++ sduItems sdus ≠ []) :
    AtLast (s.putUlschSdus bare sdus) (xs ++ sduItems sdus) := by
  induction sdus generalizing s xs with
  | nil =>
    rw [sduItems, List.map_nil, List.append_nil] at hne ⊢
    exact h.atLast hne
  | cons sdu sdus ih =>
    cases sdus with
    | nil =>
      simp only [HeaderState.putUlschSdus, if_pos hbare]
      exact h.putLastSdu sdu
    | cons next sdus =>
      have hnext := ih (h.put (.sdu sdu.1 sdu.2)) (by simp [sduItems])
      rw [List.append_assoc] at hnext
      exact hnext

end HeaderState

/-- The generator writes the octets of the header, unless there is nothing to
write. No caller asks for both kinds of padding. -/
theorem generateUlschHeader_spec (buf : ℕ → ℕ) (shortPadding : ℕ) (sdus : List (ℕ × ℕ))
    (powerHeadroom : Option PowerHeadroomCmd) (crnti : Option (Fin 65536))
    (truncatedBsr shortBsr : Option BsrShort) (longBsr : Option BsrLong) (postPadding : ℕ)
    (hpad : shortPadding = 0 ∨ postPadding = 0)
    (hne : headerItems (HeaderState.padCount shortPadding)
      ((ulschElements powerHeadroom crnti truncatedBsr shortBsr longBsr).map Prod.fst) sdus
      postPadding ≠ []) :
    Stores (generateUlschHeader buf shortPadding sdus powerHeadroom crnti truncatedBsr shortBsr
        longBsr postPadding).1 0 (ulschOctets shortPadding sdus
        (ulschElements powerHeadroom crnti truncatedBsr shortBsr longBsr) postPadding) ∧
      (generateUlschHeader buf shortPadding sdus powerHeadroom crnti truncatedBsr shortBsr
        longBsr postPadding).2 = uint8 (ulschOctets shortPadding sdus
        (ulschElements powerHeadroom crnti truncatedBsr shortBsr longBsr) postPadding).length := by
  have helements := (((HeaderState.Elements.start buf shortPadding).optionalElement
    (powerHeadroom.map (fun p ↦ (powerHeadroomLcid, p.octets)))).optionalElement
    (crnti.map (fun c ↦ (crntiLcid, crntiOctets c)))).optionalElement
    (bsrElement truncatedBsr shortBsr longBsr)
  rw [List.nil_append] at helements
  by_cases hbare : shortPadding ≠ 0 ∨ postPadding = 0
  · have hzero : postPadding = 0 := by omega
    subst hzero
    have hitems : headerItems (HeaderState.padCount shortPadding)
        ((ulschElements powerHeadroom crnti truncatedBsr shortBsr longBsr).map Prod.fst) sdus 0 =
        frontItems (HeaderState.padCount shortPadding)
          ((ulschElements powerHeadroom crnti truncatedBsr shortBsr longBsr).map Prod.fst) ++
          sduItems sdus := List.append_nil _
    rw [hitems] at hne
    have hlast := (helements.represents.putUlschSdus hbare hne).finish
    rw [HeaderState.putUlschSdus_ce, helements.payload] at hlast
    unfold ulschOctets
    rw [hitems]
    exact hlast
  · have hsame := HeaderState.putUlschSdus_of_not hbare sdus
    simp only [generateUlschHeader, hsame]
    exact helements.finish sdus postPadding hne

/-- The payload length `parse_ulsch_header` gives a control element. -/
def ulCeLength (lcid : ℕ) : ℕ :=
  if lcid = longBsrLcid then 3 else if lcid = crntiLcid then 2 else 1

/-- An LCID that is no known control element stops the process. -/
def ulControl (_ : ParseState) (_ : Bool) (lcid : ℕ) : Except ParseError ℕ :=
  if lcid = longBsrLcid then .ok 3
  else if lcid = crntiLcid then .ok 2
  else if lcid = powerHeadroomLcid ∨ lcid = truncatedBsrLcid ∨ lcid = shortBsrLcid then .ok 1
  else .error .macphyExit

def parseUlschHeader (mem : ℕ → ℕ) (tbLength : ℕ) : Except ParseError ParseState :=
  parseSubheaders extendedPowerHeadroom ulControl mem tbLength

def phrMappingOffset : ℕ := 23

/-- A control element as `rx_sdu` reads it. -/
inductive UlschCe
  | powerHeadroom (phrInfo : ℤ)
  | crnti (rnti : ℕ)
  | shortBsr (lcgid bufferSize : ℕ)
  | longBsr (bufferSize0 bufferSize1 bufferSize2 bufferSize3 : ℕ)
  deriving DecidableEq

/-- The control element switch of `rx_sdu` at the octet `p`: the values it reads
and the advance of `payload_ptr`. -/
def readCe (mem : ℕ → ℕ) (p lcid : ℕ) : Option UlschCe × ℕ :=
  if lcid = powerHeadroomLcid then
    (some (.powerHeadroom ((mem p &&& 0x3f : ℕ) - phrMappingOffset)), p + 1)
  else if lcid = crntiLcid then (some (.crnti (mem p <<< 8 + mem (p + 1))), p + 2)
  else if lcid = truncatedBsrLcid ∨ lcid = shortBsrLcid then
    (some (.shortBsr (mem p >>> 6) (mem p &&& 0x3f)), p + 1)
  else if lcid = longBsrLcid then
    (some (.longBsr ((mem p &&& 0xFC) >>> 2)
      ((mem p &&& 0x03) <<< 4 ||| (mem (p + 1) &&& 0xF0) >>> 4)
      ((mem (p + 1) &&& 0x0F) <<< 2 ||| (mem (p + 2) &&& 0xC0) >>> 6)
      (mem (p + 2) &&& 0x3F)), p + 3)
  else (none, p)

def readCes (mem : ℕ → ℕ) : List ℕ → ℕ → List UlschCe
  | [], _ => []
  | lcid :: lcids, p => (readCe mem p lcid).1.toList ++ readCes mem lcids (readCe mem p lcid).2

/-- The part of the eNB state that the control elements change. `ueId` is the
UE the block is attributed to. -/
structure RxState where
  ueId : Option ℕ
  phrInfo : ℕ → ℤ
  bsrInfo : ℕ → ℕ → ℕ

/-- What `rx_sdu` does with a control element: a C-RNTI changes the UE, a report
is kept for a known UE only. -/
def RxState.apply (findUeId : ℕ → Option ℕ) (s : RxState) (ce : UlschCe) : RxState :=
  match ce, s.ueId with
  | .crnti rnti, _ => { s with ueId := findUeId rnti }
  | _, none => s
  | .powerHeadroom phr, some ue => { s with phrInfo := update s.phrInfo ue phr }
  | .shortBsr lcgid size, some ue =>
    { s with bsrInfo := update s.bsrInfo ue (update (s.bsrInfo ue) lcgid size) }
  | .longBsr b0 b1 b2 b3, some ue =>
    { s with bsrInfo := update s.bsrInfo ue (update (update (update (update
      (s.bsrInfo ue) 0 b0) 1 b1) 2 b2) 3 b3) }

/-- The control elements of a transport block, read after
`parse_ulsch_header`. -/
def rxControlElements (mem : ℕ → ℕ) (sduLen : ℕ) : Except ParseError (List UlschCe) :=
  match parseUlschHeader mem sduLen with
  | .error e => .error e
  | .ok s => .ok (readCes mem s.ces s.ptr)

/-- The control element loop of `rx_sdu`. -/
def rxSduControl (findUeId : ℕ → Option ℕ) (s : RxState) (mem : ℕ → ℕ) (sduLen : ℕ) :
    Except ParseError RxState :=
  match rxControlElements mem sduLen with
  | .error e => .error e
  | .ok ces => .ok (ces.foldl (RxState.apply findUeId) s)

end EdgeSlice.Mac
