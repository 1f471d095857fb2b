import EdgeSlice.Mac.DlschHeader

namespace EdgeSlice.Mac

open Function ByteMemory Chain

theorem dlschElements_lcids (timingAdvance : ℤ) (ueContResId : Option (Fin 6 → ℕ)) :
    (dlschElements 255 timingAdvance ueContResId).map Prod.fst =
      (if timingAdvance ≠ 0 then [timingAdvCmd] else []) ++
        if ueContResId.isSome then [ueContRes] else [] := by
  by_cases hta : timingAdvance = 0 <;> cases ueContResId <;> simp [dlschElements, hta]

theorem dlschElements_payload (timingAdvance : ℤ) (ueContResId : Option (Fin 6 → ℕ)) :
    (((dlschElements 255 timingAdvance ueContResId).map Prod.fst).map dlCeLength).sum =
      ((dlschElements 255 timingAdvance ueContResId).flatMap Prod.snd).length := by
  by_cases hta : timingAdvance = 0 <;> cases ueContResId <;>
    simp [dlschElements, hta, dlCeLength, timingAdvCmd, ueContRes]

/-- The headers the receiver accepts: at most as many SDUs as its arrays hold, at
least one subheader, and no contention resolution as the last of several. -/
structure DlschAccepts (sdus : List (ℕ × ℕ)) (timingAdvance : ℤ)
    (ueContResId : Option (Fin 6 → ℕ)) (shortPadding postPadding : ℕ) : Prop where
  fewSdus : sdus.length ≤ nbRbMax
  ne_nil : dlschItems sdus 255 timingAdvance ueContResId shortPadding postPadding ≠ []
  contRes : ueContResId.isSome → sdus = [] → postPadding = 0 →
    timingAdvance = 0 ∧ HeaderState.padCount shortPadding = 0

section

variable {sdus : List (ℕ × ℕ)} {timingAdvance : ℤ} {ueContResId : Option (Fin 6 → ℕ)}
  {shortPadding postPadding : ℕ}

theorem DlschAccepts.accepted
    (h : DlschAccepts sdus timingAdvance ueContResId shortPadding postPadding) :
    Accepted dlControl dlCeLength (HeaderState.padCount shortPadding)
      ((dlschElements 255 timingAdvance ueContResId).map Prod.fst) sdus postPadding := by
  have hlcids := dlschElements_lcids timingAdvance ueContResId
  have hmem : ∀ c ∈ (dlschElements 255 timingAdvance ueContResId).map Prod.fst,
      c = timingAdvCmd ∨ c = ueContRes := by
    rw [hlcids]
    intro c hc
    rcases List.mem_append.mp hc with hc | hc <;> split at hc <;> simp_all
  have hpad : ∀ c ∈ (dlschElements 255 timingAdvance ueContResId).map Prod.fst,
      c ≠ shortPaddingLcid := by
    intro c hc
    rcases hmem c hc with rfl | rfl <;> decide
  refine ⟨h.ne_nil, hpad, ?_, h.fewSdus, ?_⟩
  · rw [hlcids]
    generalize ueContResId.isSome = present
    cases present <;> split <;> decide
  · intro before lcid more hsub hlast
    rcases hmem lcid (hsub.subset (by simp)) with rfl | rfl
    · rfl
    · obtain ⟨hces, hsdus, hpads⟩ := atControl_front dlCeLength
        (HeaderState.padCount shortPadding)
        (fun c hc ↦ hpad c (hsub.subset (List.mem_append_left _ hc))) ueContRes
      have hcount : (before ++ [ueContRes]).count ueContRes ≤ 1 := by
        apply (hsub.sublist.count_le ueContRes).trans
        rw [hlcids]
        generalize ueContResId.isSome = present
        cases present <;> split <;> decide
      unfold dlControl
      rw [hces, hsdus, hpads, if_neg (by decide), if_pos rfl, if_neg (by omega), if_neg ?_]
      · rfl
      · intro h
        obtain ⟨hmore, hbad⟩ := h
        obtain ⟨hall, hno, hpost⟩ := hlast hmore
        rw [hlcids] at hall
        have hsome : ueContResId.isSome = true := by
          by_contra hnone
          have hin : ueContRes ∈ before ++ [ueContRes] := by simp
          rw [hall, if_neg hnone] at hin
          split at hin <;> simp [timingAdvCmd, ueContRes] at hin
        obtain ⟨hta, hzero⟩ := h.contRes hsome hno hpost
        rw [hall, hta, hsome, hzero] at hbad
        simp at hbad

end

def delivery (sdu : ℕ × List ℕ) : DlschIndication :=
  if sdu.1 = 0 then .ccch sdu.2 else .rlc sdu.1 sdu.2

theorem deliverSdus_stored {mem : ℕ → ℕ} {sdus : List (ℕ × List ℕ)} {ptr : ℕ}
    (hlcid : ∀ sdu ∈ sdus, sdu.1 < nbRbMax) (hmem : Stores mem ptr (sdus.flatMap Prod.snd)) :
    deliverSdus mem (sduLengths sdus) ptr = sdus.map delivery := by
  induction sdus generalizing ptr with
  | nil => rfl
  | cons sdu sdus ih =>
    obtain ⟨hl, hlcid⟩ := List.forall_mem_cons.mp hlcid
    obtain ⟨hdata, hrest⟩ := stores_append.mp hmem
    have hcons : sduLengths (sdu :: sdus) = (sdu.1, sdu.2.length) :: sduLengths sdus := rfl
    rw [hcons, deliverSdus, ih hlcid hrest, load_of_stores hdata, List.map_cons]
    congr 1
    unfold delivery
    by_cases h₀ : sdu.1 = 0
    · simp [h₀]
    · by_cases h₁ : sdu.1 = 1 ∨ sdu.1 = 2
      · simp [h₀, h₁]
      · have h₂ : sdu.1 < nbRbMax ∧ 2 < sdu.1 := ⟨hl, by omega⟩
        simp [h₀, h₁, h₂]

/-- The indications for the control elements of a header. -/
def controlIndications (mac : UeMac) (timingAdvance : ℤ) (ueContResId : Option (Fin 6 → ℕ)) :
    List DlschIndication :=
  (if timingAdvance ≠ 0 then [.processTimingAdvance (timingAdvanceOctet timingAdvance)] else []) ++
    match ueContResId with
    | some id => .contentionResolution (List.ofFn id) :: if mac.raActive then [.raSucceeded] else []
    | none => []

/-- A contention resolution ends the random access procedure. -/
def UeMac.resolved (mac : UeMac) (ueContResId : Option (Fin 6 → ℕ)) : UeMac :=
  if ueContResId.isSome ∧ mac.raActive then
    { mac with raActive := false, raContentionResolutionTimerActive := false }
  else mac

theorem walkCes_stored {mac : UeMac} {mem : ℕ → ℕ} {timingAdvance : ℤ}
    {ueContResId : Option (Fin 6 → ℕ)} {ptr : ℕ}
    (hmem : Stores mem ptr ((dlschElements 255 timingAdvance ueContResId).flatMap Prod.snd))
    (hra : ∀ id, ueContResId = some id → mac.raActive = true →
      load mac.ccchPdu 3 6 = List.ofFn id) :
    walkCes mem ((dlschElements 255 timingAdvance ueContResId).map Prod.fst)
        ((dlschElements 255 timingAdvance ueContResId).map Prod.fst).length 0
        ⟨mac, ptr, [], false⟩ =
      ⟨mac.resolved ueContResId,
        ptr + ((dlschElements 255 timingAdvance ueContResId).flatMap Prod.snd).length,
        controlIndications mac timingAdvance ueContResId, false⟩ := by
  -- the contention resolution at `p`, last in the list
  have hlast : ∀ (ces : List ℕ) (i p : ℕ) (id : Fin 6 → ℕ) (out : List DlschIndication),
      ueContResId = some id → ces.length = i + 1 → ces[i]? = some ueContRes →
      Stores mem p (List.ofFn id) →
      walkCes mem ces 1 i ⟨mac, p, out, false⟩ = ⟨mac.resolved ueContResId, p + 6,
        out ++ .contentionResolution (List.ofFn id) ::
          (if mac.raActive then [.raSucceeded] else []), false⟩ := by
    intro ces i p id out hid hlen hce hstored
    have hload := load_of_stores hstored
    rw [List.length_ofFn] at hload
    cases hactive : mac.raActive with
    | false => simp [walkCes, hce, hactive, hload, UeMac.resolved]
    | true =>
      simp [walkCes, hce, hactive, hload, hra id hid hactive, UeMac.resolved, hid]
  by_cases hta : timingAdvance = 0
  · cases ueContResId with
    | none => simp [dlschElements, hta, walkCes, UeMac.resolved, controlIndications]
    | some id =>
      have hid : Stores mem ptr (List.ofFn id) := by simpa [dlschElements, hta] using hmem
      have hwalk := hlast [ueContRes] 0 ptr id [] rfl rfl rfl hid
      simpa [dlschElements, hta, controlIndications] using hwalk
  · cases ueContResId with
    | none =>
      have hoctet : mem ptr = timingAdvanceOctet timingAdvance := by
        simpa [dlschElements, hta] using hmem
      simp [dlschElements, hta, walkCes, UeMac.resolved, controlIndications, hoctet,
        timingAdvCmd, ueContRes]
    | some id =>
      have hboth : mem ptr = timingAdvanceOctet timingAdvance ∧
          Stores mem (ptr + 1) (List.ofFn id) := by
        simpa [dlschElements, hta] using hmem
      have hwalk := hlast [timingAdvCmd, ueContRes] 1 (ptr + 1) id
        [.processTimingAdvance (mem ptr)] rfl rfl rfl hboth.2
      have hfirst : walkCes mem [timingAdvCmd, ueContRes] 2 0 ⟨mac, ptr, [], false⟩ =
          walkCes mem [timingAdvCmd, ueContRes] 1 1
            ⟨mac, ptr + 1, [.processTimingAdvance (mem ptr)], false⟩ := rfl
      rw [hboth.1] at hwalk hfirst
      simpa [dlschElements, hta, controlIndications, hfirst] using hwalk

theorem dlschOctets_length (sdus : List (ℕ × ℕ)) (timingAdvance : ℤ)
    (ueContResId : Option (Fin 6 → ℕ)) (shortPadding postPadding : ℕ)
    (hfew : sdus.length ≤ nbRbMax) :
    (dlschOctets sdus 255 timingAdvance ueContResId shortPadding postPadding).length < 256 := by
  have hitems := Subheader.chain_length_le
    (dlschItems sdus 255 timingAdvance ueContResId shortPadding postPadding)
  have hces : ((dlschElements 255 timingAdvance ueContResId).map Prod.fst).length ≤ 2 ∧
      ((dlschElements 255 timingAdvance ueContResId).flatMap Prod.snd).length ≤ 7 := by
    by_cases hta : timingAdvance = 0 <;> cases ueContResId <;> simp [dlschElements, hta]
  have hcount := headerItems_length_le shortPadding
    ((dlschElements 255 timingAdvance ueContResId).map Prod.fst) sdus postPadding
  unfold nbRbMax at hfew
  unfold dlschItems at hitems
  unfold dlschOctets dlschItems
  rw [List.length_append]
  omega

/-- Decoding what the generator wrote gives back the control elements and the
SDUs, for logical channels the receiver knows and headers it accepts. -/
theorem dlsch_round_trip (buf : ℕ → ℕ) (sdus : List (ℕ × List ℕ)) (timingAdvance : ℤ)
    (ueContResId : Option (Fin 6 → ℕ)) (shortPadding postPadding : ℕ) (padding : List ℕ)
    (mac : UeMac) (mem : ℕ → ℕ) (block : List ℕ)
    (hblock : block = load (generateDlschHeader buf (sduLengths sdus)
        255 timingAdvance ueContResId shortPadding postPadding).1 0
        (generateDlschHeader buf (sduLengths sdus)
        255 timingAdvance ueContResId shortPadding postPadding).2 ++
      sdus.flatMap Prod.snd ++ padding)
    (hmem : Stores mem 0 block) (hpad : postPadding = 0 → padding = [])
    (haccepts : DlschAccepts (sduLengths sdus) timingAdvance
      ueContResId shortPadding postPadding)
    (hlcid : ∀ sdu ∈ sdus, sdu.1 < nbRbMax) (hlen : ∀ sdu ∈ sdus, sdu.2.length < 32768)
    (hra : ∀ id, ueContResId = some id → mac.raActive = true →
      load mac.ccchPdu 3 6 = List.ofFn id) :
    ueSendSdu mac mem block.length = some (mac.resolved ueContResId,
      controlIndications mac timingAdvance ueContResId ++ sdus.map delivery) := by
  obtain ⟨hstored, hoffset⟩ := generateDlschHeader_spec buf
    (sduLengths sdus) 255 timingAdvance ueContResId shortPadding
    postPadding haccepts.ne_nil
  rw [uint8_of_lt (dlschOctets_length _ timingAdvance ueContResId shortPadding postPadding
    haccepts.fewSdus)] at hoffset
  rw [hoffset, load_of_stores hstored] at hblock
  subst hblock
  obtain ⟨hfront, -⟩ := stores_append.mp hmem
  obtain ⟨hheader, hdata⟩ := stores_append.mp hfront
  obtain ⟨hsubheaders, hpayload⟩ := stores_append.mp hheader
  rw [Nat.zero_add] at hdata hpayload
  have hces : ∀ c ∈ (dlschElements 255 timingAdvance ueContResId).map Prod.fst,
      ueContRes ≤ c ∧ c < 32 := by
    by_cases hta : timingAdvance = 0 <;> cases ueContResId <;>
      simp [dlschElements, hta, ueContRes, timingAdvCmd]
  have hsdus : ∀ sdu ∈ sduLengths sdus, sdu.1 < ueContRes := by
    intro x hx
    obtain ⟨sdu, hsdu, rfl⟩ := List.mem_map.mp hx
    exact (hlcid sdu hsdu).trans (by decide)
  set block := dlschOctets (sduLengths sdus) 255 timingAdvance
    ueContResId shortPadding postPadding ++ sdus.flatMap Prod.snd ++ padding with hblock
  have htb : block.length = (chain Subheader.encode (headerItems
      (HeaderState.padCount shortPadding)
      ((dlschElements 255 timingAdvance ueContResId).map Prod.fst)
      (sduLengths sdus) postPadding)).length +
      (((dlschElements 255 timingAdvance ueContResId).map Prod.fst).map dlCeLength).sum +
      ((sduLengths sdus).map Prod.snd).sum + padding.length := by
    rw [dlschElements_payload, hblock]
    simp only [dlschOctets, dlschItems, List.length_append, List.length_flatMap, sduLengths,
      List.map_map, comp_def]
  have hparse := parseSubheaders_found le_rfl haccepts.accepted hces hsdus block.length
    hsubheaders (by omega)
  have hlengths := readLengths_exact (by
      intro x hx
      obtain ⟨sdu, hsdu, rfl⟩ := List.mem_map.mp hx
      exact hlen sdu hsdu) (fun h ↦ by rw [hpad h]; rfl) htb
  have hparse' : parseHeader mem block.length = .ok _ := hparse
  have hdeliver := deliverSdus_stored hlcid hdata
  have hzip : sduLengths sdus = ((sduLengths sdus).map Prod.fst).zip
      ((sduLengths sdus).map Prod.snd) := List.zip_of_prod rfl rfl
  unfold dlschItems at hpayload
  simp only [ueSendSdu, hparse', ParseState.found, hlengths, walkCes_stored hpayload hra, ← hzip]
  rw [← hdeliver, dlschOctets, List.length_append]
  rfl

def UeMac.connected : UeMac where
  raActive := false
  raContentionResolutionTimerActive := false
  ccchPdu _ := 0

theorem dlsch_round_trip_dcch :
    ueSendSdu .connected (fun i ↦ [31 + 32, 1, 7, 8].getD i 0) 4 =
      some (.connected, [.rlc 1 [7, 8]]) :=
  dlsch_round_trip (fun _ ↦ 0) [(1, [7, 8])] 0 none 1 0 [] .connected
    (fun i ↦ [31 + 32, 1, 7, 8].getD i 0) [31 + 32, 1, 7, 8] (by decide)
    ⟨rfl, rfl, rfl, rfl, trivial⟩ (fun _ ↦ rfl)
    ⟨by decide, headerItems_ne_nil.mpr (by decide), by decide⟩ (by decide) (by decide)
    (fun _ h ↦ by cases h)

/-- The receiver recovers what the generator was asked for, in a block of exactly
that size. -/
def RoundTrips (mac : UeMac) (sdus : List (ℕ × List ℕ)) (timingAdvance : ℤ)
    (ueContResId : Option (Fin 6 → ℕ)) : Prop :=
  let h := generateDlschHeader (fun _ ↦ 0) (sduLengths sdus) 255 timingAdvance ueContResId 0 0
  let block := load h.1 0 h.2 ++ sdus.flatMap Prod.snd
  (ueSendSdu mac (fun i ↦ block.getD i 0) block.length).map Prod.snd =
    some (controlIndications mac timingAdvance ueContResId ++ sdus.map delivery)

instance (mac : UeMac) (sdus : List (ℕ × List ℕ)) (timingAdvance : ℤ)
    (ueContResId : Option (Fin 6 → ℕ)) :
    Decidable (RoundTrips mac sdus timingAdvance ueContResId) :=
  inferInstanceAs (Decidable (_ = _))

/-- Logical channel 14 is unknown to the receiver, fifteen SDUs leave its arrays,
it rejects a contention resolution behind another subheader, and the identity of
another UE ends the walk. -/
theorem not_dlsch_round_trip :
    ¬ RoundTrips .connected [(14, [7])] 0 none ∧
    ¬ RoundTrips .connected (List.replicate 15 (3, [7])) 0 none ∧
    ¬ RoundTrips .connected [] 5 (some fun _ ↦ 1) ∧
    ¬ RoundTrips ⟨true, true, fun _ ↦ 0⟩ [(0, [7])] 0 (some fun _ ↦ 1) := by
  refine ⟨by decide +kernel, by decide +kernel, by decide +kernel, by decide +kernel⟩

end EdgeSlice.Mac
