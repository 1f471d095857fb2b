import EdgeSlice.Rlc.UmSegmenters
import EdgeSlice.Rlc.UmWindowRuns

/-! The two sides of UM and a channel between them that loses, repeats and delays PDUs. -/

namespace EdgeSlice.Rlc

open BitField Function Segmentation SequenceSpace

/-- A frame that was sent, and whether it begins with an SDU. -/
structure SentFrame where
  fiFirst : Bool
  frame : Frame UInt8

/-- The frame goes on where `output` of an SDU has been sent, and the receiver can take it. -/
structure SentFrame.Fits (p : SentFrame) (output : Bytes) (max : ℕ) : Prop where
  first : p.fiFirst = true → output = []
  last_pos : 0 < p.frame.last.length
  segments : ∀ segment ∈ p.frame.complete, segment ≠ [] ∧ segment.length < 2048
  few : p.frame.complete.length ≤ rlcUmSegmentNbMaxLiPerPdu
  messages : ∀ message ∈ (messages output p.frame.complete).1, message.length ≤ max
  last : ((Segmentation.messages output p.frame.complete).2 ++ p.frame.last).length ≤ max

namespace UmEntity

variable {r : UmEntity} {c : Collector UInt8} {p : SentFrame} {output pdu : Bytes} {n L : ℕ}

/-- The `n`th PDU, with sequence numbers of `L` bits. -/
def encodeSn (L n : ℕ) (p : SentFrame) : Bytes :=
  if L = 10 then encodePdu10 (.ofNat n) p.fiFirst p.frame else encodePdu (.ofNat n) p.fiFirst p.frame

theorem readsAs_encodeSn (hlength : r.rxSnLength = L) (hL : L = 5 ∨ L = 10) (n : ℕ) (p : SentFrame) :
    ∃ size, r.ReadsAs (encodeSn L n p) p.fiFirst p.frame size := by
  rcases hL with rfl | rfl
  · exact ⟨1, readsAs_encodePdu hlength _ _ _⟩
  · exact ⟨2, header_pdu10B1 (framingInfo_lt p.fiFirst p.frame.ends) _ _ _ hlength, rfl⟩

/-- Where the beginning of an SDU is lost the first segment of a frame is left out. -/
theorem reassembleFrame_waiting (f : Frame UInt8) (hmissing : r.reassemblyMissingSnDetected = true) :
    r.reassembleFrame false f =
      match f.complete with
      | [] => r.setMissing !f.ends
      | _ :: segments => (r.reassembleSegments ⟨segments, f.last, f.ends⟩).setMissing false := by
  obtain ⟨complete, last, ends⟩ := f
  cases complete with
  | nil =>
    rw [reassembleFrame, if_pos rfl, reassembleData]
    cases ends with
    | true =>
      simp only [hmissing]
      rfl
    | false =>
      simp only [hmissing]
      rfl
  | cons segment segments =>
    have hskip : r.skipFirst ((segment :: segments).map List.length)
        (Frame.payload ⟨segment :: segments, last, ends⟩) =
          (segments.map List.length, Frame.payload ⟨segments, last, ends⟩) := by
      rw [skipFirst, hmissing, Frame.payload, List.flatten_cons, List.append_assoc]
      exact Prod.ext rfl List.drop_left
    rw [reassembleFrame, if_neg (List.cons_ne_nil _ _), reassembleLis, hskip]
    cases ends with
    | true => rfl
    | false => rfl

/-- The entity has handed up what the collector has, and holds what it keeps, where the numbers below `n` are done
with. -/
structure Collects (c : Collector UInt8) (n : ℕ) (r : UmEntity) : Prop where
  dataInd : r.dataInd = c.delivered
  waits : c.kept = none → r.reassemblyMissingSnDetected = true ∧ r.Holds []
  holds : ∀ output ∈ c.kept, r.reassemblyMissingSnDetected = false ∧ r.Holds output ∧
    (output = [] ∨ (r.lastReassembliedSn + 1) % r.rxSnModulo = n % r.rxSnModulo)

theorem Collects.exists_holds (h : r.Collects c n) : ∃ output, r.Holds output := by
  cases hkept : c.kept with
  | none => exact ⟨[], (h.waits hkept).2⟩
  | some output => exact ⟨output, (h.holds output hkept).2.1⟩

/-- A number that has not arrived. -/
theorem Collects.lose (h : r.Collects c n) (hnone : r.darBuffer (n % r.rxSnModulo) = none) :
    (r.reassembleSn (n % r.rxSnModulo)).Collects c.lose (n + 1) := by
  obtain ⟨output, hholds⟩ := h.exists_holds
  rw [reassembleSn, hnone]
  refine ⟨h.dataInd, fun _ ↦ ⟨rfl, ?_⟩, fun _ hkept ↦ absurd hkept (Option.not_mem_none _)⟩
  have hset : (r.setMissing true).Holds output := hholds
  exact hset.clear.1

/-- What the collector makes of a frame, and whether it waits before. -/
theorem receive_frame {fs : List (Frame UInt8)} {max : ℕ} (hc : c.InStep fs) (hfits : p.Fits (assemble fs).2 max)
    (hmax : r.sduMaxSize = max) (hwaits : c.kept = none → r.reassemblyMissingSnDetected = true ∧ r.Holds [])
    (hholds : ∀ output ∈ c.kept, r.reassemblyMissingSnDetected = false ∧ r.Holds output) :
    ∃ delivered output, (c.receive p.fiFirst p.frame).delivered = c.delivered ++ delivered ∧
      (r.setMissing (c.receive p.fiFirst p.frame).kept.isNone).Delivers delivered output
        (r.reassembleFrame p.fiFirst p.frame) ∧
      ((c.receive p.fiFirst p.frame).kept = none → output = []) ∧
      ∀ kept ∈ (c.receive p.fiFirst p.frame).kept, kept = output := by
  have hsegments := fun segment hsegment ↦ (hfits.segments segment hsegment).1
  have hmessages := hfits.messages
  have hlast := hfits.last
  rw [← hmax] at hmessages hlast
  rw [Collector.receive]
  cases hkept : c.kept with
  | some output =>
    obtain rfl := hc.kept output hkept
    obtain ⟨hmissing, hheld⟩ := hholds _ hkept
    exact ⟨_, _, rfl, hheld.reassembleFrame (Or.inr hmissing) hfits.first hfits.last_pos hsegments hmessages hlast,
      fun h ↦ absurd h (Option.some_ne_none _), fun _ h ↦ (Option.some.inj h).symm⟩
  | none =>
    obtain ⟨hmissing, hheld⟩ := hwaits hkept
    dsimp only
    cases hfirst : p.fiFirst with
    | true =>
      rw [hfits.first hfirst] at hmessages hlast
      exact ⟨_, _, rfl, hheld.reassembleFrame (Or.inl rfl) (fun _ ↦ rfl) hfits.last_pos hsegments hmessages hlast,
        fun h ↦ absurd h (Option.some_ne_none _), fun _ h ↦ (Option.some.inj h).symm⟩
    | false =>
      rw [reassembleFrame_waiting p.frame hmissing, if_neg Bool.false_ne_true, Collector.resume]
      cases hcomplete : p.frame.complete with
      | nil =>
        refine ⟨[], [], rfl, ?_, fun _ ↦ rfl, ?_⟩
        · cases hends : p.frame.ends with
          | true => exact hheld.delivers.setMissing false
          | false => exact hheld.delivers.setMissing true
        · dsimp only
          split_ifs
          · exact fun _ h ↦ (Option.some.inj h).symm
          · exact fun _ h ↦ absurd h (Option.not_mem_none _)
      | cons segment segments =>
        rw [hcomplete] at hsegments hmessages hlast
        have hrest := hheld.reassembleSegments (f := ⟨segments, p.frame.last, p.frame.ends⟩) hfits.last_pos
          (fun segment hsegment ↦ hsegments segment (List.mem_cons_of_mem _ hsegment))
          (fun message hmessage ↦ hmessages message (List.mem_cons_of_mem _ hmessage)) hlast
        exact ⟨_, _, rfl, hrest.setMissing false, fun h ↦ absurd h (Option.some_ne_none _),
          fun _ h ↦ (Option.some.inj h).symm⟩

/-- A number that has arrived. -/
theorem Collects.receive {fs : List (Frame UInt8)} {size max : ℕ} (h : r.Collects c n) (hc : c.InStep fs)
    (hsome : r.darBuffer (n % r.rxSnModulo) = some pdu) (hfits : p.Fits (assemble fs).2 max)
    (hread : r.ReadsAs pdu p.fiFirst p.frame size) (hmax : r.sduMaxSize = max) :
    (r.reassembleSn (n % r.rxSnModulo)).Collects (c.receive p.fiFirst p.frame) (n + 1) ∧
      (r.reassembleSn (n % r.rxSnModulo)).sduMaxSize = max := by
  generalize hr₁ : ({ if (r.lastReassembliedSn + 1) % r.rxSnModulo ≠ n % r.rxSnModulo then r.clearRxSdu else r with
    lastReassembliedSn := n % r.rxSnModulo } : UmEntity) = r₁
  have hsn : r.reassembleSn (n % r.rxSnModulo) =
      { r₁.reassemblePdu pdu with
        darBuffer := update (r₁.reassemblePdu pdu).darBuffer (n % r.rxSnModulo) none } := by
    rw [reassembleSn, hsome, ← hr₁]
  -- an SDU that does not go on with this number is one of which nothing is held
  have hsame : r₁.dataInd = r.dataInd ∧ r₁.reassemblyMissingSnDetected = r.reassemblyMissingSnDetected ∧
      r₁.sduMaxSize = r.sduMaxSize ∧ r₁.rxSnLength = r.rxSnLength ∧ r₁.rxSnModulo = r.rxSnModulo ∧
      r₁.lastReassembliedSn = n % r.rxSnModulo ∧
      ∀ output, r.Holds output →
        (output = [] ∨ (r.lastReassembliedSn + 1) % r.rxSnModulo = n % r.rxSnModulo) → r₁.Holds output := by
    rw [← hr₁]
    split_ifs with hgap
    · refine ⟨rfl, rfl, rfl, rfl, rfl, rfl, fun output hholds hnext ↦ ?_⟩
      rw [hnext.resolve_right hgap] at hholds ⊢
      exact hholds.clear.1
    · exact ⟨rfl, rfl, rfl, rfl, rfl, rfl, fun _ hholds _ ↦ hholds⟩
  obtain ⟨hdata, hmissing, hmax₁, hlength, hmodulo, hlast, hheld⟩ := hsame
  obtain ⟨delivered, output, hdelivered, hdelivers, hnone, hkept⟩ := receive_frame (r := r₁) hc hfits
    (hmax₁.trans hmax) (fun hnone ↦ ⟨hmissing.trans (h.waits hnone).1, hheld [] (h.waits hnone).2 (Or.inl rfl)⟩)
    (fun output hmem ↦ ⟨hmissing.trans (h.holds output hmem).1,
      hheld output (h.holds output hmem).2.1 (h.holds output hmem).2.2⟩)
  have hread₁ : r₁.ReadsAs pdu p.fiFirst p.frame size := by
    refine ⟨?_, hread.body⟩
    rw [← hread.header, UmEntity.header, UmEntity.header, hlength]
  rw [hsn, hread₁.reassemblePdu hfits.last_pos (fun segment hsegment ↦ (hfits.segments segment hsegment).2) hfits.few]
  have hsize := hdelivers.sduMaxSize
  obtain ⟨hholds, block, written, hframe⟩ := hdelivers
  rw [hframe] at hholds hsize ⊢
  refine ⟨⟨?_, fun hwaits ↦ ?_, fun kept hmem ↦ ?_⟩, hsize.trans (hmax₁.trans hmax)⟩
  · change r₁.dataInd ++ delivered = _
    rw [hdata, h.dataInd, hdelivered]
  · rw [hnone hwaits] at hholds
    exact ⟨congrArg Option.isNone hwaits, hholds⟩
  · rw [← hkept kept hmem] at hholds
    refine ⟨congrArg Option.isNone (Option.mem_def.mp hmem), hholds, Or.inr ?_⟩
    change (r₁.lastReassembliedSn + 1) % r₁.rxSnModulo = (n + 1) % r₁.rxSnModulo
    rw [hlast, hmodulo, Nat.mod_add_mod]

variable {M max : ℕ} {sent : List SentFrame}

/-- What the buffer may hold for a number from the `M`th on: the PDU that was sent with it. -/
def SentPdu (L M : ℕ) (sent : List SentFrame) (j : ℕ) (x : Option Bytes) : Prop :=
  ∀ pdu ∈ x, ∃ k p, j = M + k ∧ sent[k]? = some p ∧ pdu = encodeSn L k p

/-- The first frames. -/
def framesTo (sent : List SentFrame) (k : ℕ) : List (Frame UInt8) := (sent.take k).map (·.frame)

/-- All frames go on with what was sent before. -/
def AllFit (max : ℕ) (sent : List SentFrame) : Prop :=
  ∀ k (p : SentFrame), sent[k]? = some p → p.Fits (assemble (framesTo sent k)).2 max

/-- Where the numbers below `n` are done with: what is handed up are SDUs that were sent with them, in their order. -/
def Collected (L M max : ℕ) (sent : List SentFrame) (n : ℕ) (r : UmEntity) : Prop :=
  r.rxSnLength = L ∧ r.sduMaxSize = max ∧
    ∃ c, Collector.InStep (framesTo sent (n - M)) c ∧ r.Collects c n ∧
      (c.kept ≠ none → n - M ≤ sent.length)

theorem framesTo_mono (sent : List SentFrame) {j k : ℕ} (h : j ≤ k) : framesTo sent j <+: framesTo sent k :=
  (List.take_prefix_take_left h).map _

theorem framesTo_succ {k : ℕ} (h : sent[k]? = some p) : framesTo sent (k + 1) = framesTo sent k ++ [p.frame] := by
  rw [framesTo, List.take_add_one, h, List.map_append]
  rfl

theorem framesTo_append {k : ℕ} (h : k ≤ sent.length) (more : List SentFrame) :
    framesTo (sent ++ more) k = framesTo sent k := by
  rw [framesTo, framesTo, List.take_append_of_le_length h]

theorem framesTo_length (sent : List SentFrame) : framesTo sent sent.length = sent.map (·.frame) := by
  rw [framesTo, List.take_length]

theorem AllFit.concat {p : SentFrame} (h : AllFit max sent) (hp : p.Fits (assemble (sent.map (·.frame))).2 max) :
    AllFit max (sent ++ [p]) := by
  intro k q hq
  rcases Nat.lt_trichotomy k sent.length with hlt | rfl | hgt
  · rw [List.getElem?_append_left hlt] at hq
    rw [framesTo_append hlt.le]
    exact h k q hq
  · rw [List.getElem?_concat_length] at hq
    rw [framesTo_append (Nat.le_refl _), framesTo_length, ← Option.some.inj hq]
    exact hp
  · rw [List.getElem?_eq_none (by
      rw [List.length_append, List.length_singleton]
      omega)] at hq
    cases hq

/-- The reassembly goes on as the collector does, whatever is missing. -/
theorem collected_rule (hL : L = 5 ∨ L = 10) (hfit : AllFit max sent) :
    Rule M (SentPdu L M sent) (Collected L M max sent) where
  missing n := fun _ h ↦ absurd h (Option.not_mem_none _)
  frame n r vrUh darBuffer h := by
    obtain ⟨hlength, hmax, c, hc, hcollects, hbound⟩ := h
    exact ⟨hlength, hmax, c, hc, ⟨hcollects.dataInd, hcollects.waits, hcollects.holds⟩, hbound⟩
  step n r hmodulo h hcontent := by
    obtain ⟨hlength, hmax, c, hc, hcollects, hbound⟩ := h
    obtain ⟨-, -, hlength', -⟩ := reassembleSn_window (n % M) r
    refine ⟨hlength'.trans hlength, ?_⟩
    cases hbuffer : r.darBuffer (n % M) with
    | none =>
      have hlose : (r.reassembleSn (n % M)).Collects c.lose (n + 1) := by
        rw [← hmodulo] at hbuffer ⊢
        exact hcollects.lose hbuffer
      refine ⟨?_, c.lose, hc.lose (framesTo_mono sent (Nat.sub_le_sub_right (Nat.le_succ n) _)), hlose,
        fun h ↦ absurd rfl h⟩
      rw [reassembleSn, hbuffer]
      exact hmax
    | some pdu =>
      obtain ⟨k, p, hn, hp, hpdu⟩ := hcontent pdu hbuffer
      have hk : n - M = k := by omega
      have hk' : n + 1 - M = k + 1 := by omega
      obtain ⟨size, hread⟩ := readsAs_encodeSn hlength hL k p
      rw [← hpdu] at hread
      rw [hk] at hc
      rw [← hmodulo] at hbuffer
      obtain ⟨hreceived, hmax'⟩ := hcollects.receive hc hbuffer (hfit k p hp) hread hmax
      rw [hmodulo] at hreceived hmax'
      refine ⟨hmax', _, ?_, hreceived, fun _ ↦ ?_⟩
      · rw [hk', framesTo_succ hp]
        exact hc.receive (hfit k p hp).first
      · rw [hk']
        exact (List.getElem?_eq_some_iff.mp hp).1

theorem Collected.append {n : ℕ} (h : Collected L M max sent n r) (more : List SentFrame) :
    Collected L M max (sent ++ more) n r := by
  obtain ⟨hlength, hmax, c, hc, hcollects, hbound⟩ := h
  refine ⟨hlength, hmax, c, ?_, hcollects, fun hkept ↦ ?_⟩
  · by_cases hle : n - M ≤ sent.length
    · rw [framesTo_append hle]
      exact hc
    · have hkept : c.kept = none := by
        by_contra hkept
        exact hle (hbound hkept)
      have hlost : c.lose = c := by
        rw [Collector.lose, ← hkept]
      have hlong : framesTo sent (n - M) <+: framesTo (sent ++ more) (n - M) := by
        rw [framesTo, framesTo, List.take_append, List.map_append]
        exact List.prefix_append _ _
      rw [← hlost]
      exact hc.lose hlong
  · have hle := hbound hkept
    rw [List.length_append]
    omega

theorem SentPdu.append {j : ℕ} {x : Option Bytes} (h : SentPdu L M sent j x) (more : List SentFrame) :
    SentPdu L M (sent ++ more) j x := by
  intro pdu hpdu
  obtain ⟨k, p, hj, hp, heq⟩ := h pdu hpdu
  refine ⟨k, p, hj, ?_, heq⟩
  rw [List.getElem?_append_left (List.getElem?_eq_some_iff.mp hp).1]
  exact hp

end UmEntity

end EdgeSlice.Rlc

namespace EdgeSlice.Rlc

open BitField Segmentation

namespace UmEntity

variable {s : UmEntity} {sdu : TxSdu} {sdus : List TxSdu} {submitted : List Bytes} {sent : List SentFrame}
  {nbBytes max L n : ℕ}

instance (s : UmEntity) (k : ℕ) : Decidable (s.LeavesBytes k) := inferInstanceAs (Decidable (_ ∧ _ ∧ _))

/-- `rlc_um_get_pdus`, where MAC has asked for so many bytes. -/
def getPdus (txSnLength nbBytes : ℕ) (block : ℕ → UInt8) (s : UmEntity) : UmEntity × Option TxPdu :=
  let s := { s with nbBytesRequestedByMac := nbBytes }
  if txSnLength = 10 then s.segment10 block
  else if txSnLength = 5 then s.segment5 block
  else (s, none)

/-- The configuration for sequence numbers of `L` bits. -/
def HasSnLength (L : ℕ) (s : UmEntity) : Prop :=
  L = 5 ∧ s.txHeaderMinLengthInBytes = 1 ∨
    L = 10 ∧ s.txHeaderMinLengthInBytes = 2 ∧ s.rxSnLength = 10 ∧ s.rxSnModulo = 1024

/-- The grant does not leave bytes that no length indicator fits. -/
def Exact (txSnLength nbBytes : ℕ) (s : UmEntity) : Prop :=
  txSnLength = 10 → ∀ k < s.inputSdus.length, ¬{ s with nbBytesRequestedByMac := nbBytes - 1 }.LeavesBytes k

instance (txSnLength nbBytes : ℕ) (s : UmEntity) : Decidable (s.Exact txSnLength nbBytes) :=
  inferInstanceAs (Decidable (_ → _))

/-- The entity with the header of five bits. -/
def short (nbBytes : ℕ) (s : UmEntity) : UmEntity :=
  { s with txHeaderMinLengthInBytes := 1, nbBytesRequestedByMac := nbBytes }

theorem short_sn10 (hheader : s.txHeaderMinLengthInBytes = 2) (hlength : s.rxSnLength = 10)
    (hmodulo : s.rxSnModulo = 1024) (hnb : 0 < nbBytes) :
    (s.short (nbBytes - 1)).sn10 = { s with nbBytesRequestedByMac := nbBytes } := by
  cases s
  subst hheader hlength hmodulo
  simp only [sn10, short, Nat.sub_add_cancel hnb]

theorem getPdus_idle (block : ℕ → UInt8) (h : s.HasSnLength L)
    (hidle : nbBytes < s.txHeaderMinLengthInBytes + 1 ∨ s.inputSdus = []) :
    s.getPdus L nbBytes block = ({ s with nbBytesRequestedByMac := nbBytes }, none) := by
  rcases hidle with hnb | hnil
  · rcases h with ⟨rfl, hheader⟩ | ⟨rfl, hheader, -⟩
    · rw [hheader] at hnb
      exact if_pos hnb
    · rw [hheader] at hnb
      exact if_pos hnb
  · rcases h with ⟨rfl, -⟩ | ⟨rfl, -⟩
    · exact segment5_idle (s := { s with nbBytesRequestedByMac := nbBytes }) block hnil
    · exact segment10_idle (s := { s with nbBytesRequestedByMac := nbBytes }) block hnil

/-- A PDU carries a frame of SDUs and nothing else. -/
theorem getPdus_eq (block : ℕ → UInt8) (h : s.HasSnLength L) (hconsistent : (s.short 0).Consistent)
    (hnb : s.txHeaderMinLengthInBytes + 1 ≤ nbBytes) (hsdus : s.inputSdus = sdu :: sdus)
    (hexact : s.Exact L nbBytes) (hvtUs : s.vtUs = .ofNat n) :
    ∃ room f sdus', Packs 1 room s.inputSdus f sdus' ∧
      s.getPdus L nbBytes block =
        ({ s with
            inputSdus := sdus'
            bufferOccupancy := s.bufferOccupancy - f.payload.length
            nbBytesRequestedByMac := nbBytes
            vtUs := .ofNat (n + 1) },
          some ⟨encodeSn L n ⟨sdu.sduRemainingSize = sdu.sduSize, f⟩, f.complete.length + 1⟩) := by
  have hnext : s.vtUs + 1 = .ofNat (n + 1) := by
    rw [hvtUs]
    exact (UInt16.ofNat_add n 1).symm
  rcases h with ⟨rfl, hheader⟩ | ⟨rfl, hheader, hlength, hmodulo⟩
  · have hgranted : ({ s with nbBytesRequestedByMac := nbBytes } : UmEntity).Consistent :=
      ⟨hheader, hconsistent.bufferOccupancy, hconsistent.remaining_pos⟩
    obtain ⟨room, f, sdus', hpacks, hsegment⟩ := segment5_eq block hgranted (by
      change 2 ≤ nbBytes
      omega) hsdus
    refine ⟨room, f, sdus', hpacks, hsegment.trans ?_⟩
    rw [← hnext, encodeSn, if_neg (by decide), ← hvtUs]
  · have hshort : (s.short (nbBytes - 1)).Consistent :=
      ⟨rfl, hconsistent.bufferOccupancy, hconsistent.remaining_pos⟩
    have hnb' : 2 ≤ (s.short (nbBytes - 1)).nbBytesRequestedByMac := by
      change 2 ≤ nbBytes - 1
      omega
    obtain ⟨reduced, f, sdus', hfound⟩ := hshort.found hnb' (by
      change s.inputSdus ≠ []
      rw [hsdus]
      exact List.cons_ne_nil _ _)
    obtain ⟨spare, hspare, hsegment⟩ := hfound.segment10 block hnb' hsdus
    -- bytes behind the frame are those that the grant leaves
    have hnone : spare = [] := by
      rw [← List.length_eq_zero_iff, hspare]
      by_contra hpos
      have hleaves := (hfound.leavesBytes_iff hshort).mpr ⟨Nat.pos_of_ne_zero hpos, rfl⟩
      have hlt : f.complete.length + 1 < s.inputSdus.length := hleaves.1
      exact hexact rfl _ (by omega) hleaves
    rw [hnone, List.append_nil, short_sn10 hheader hlength hmodulo (by omega)] at hsegment
    refine ⟨_, f, sdus', hfound.packs, hsegment.trans ?_⟩
    rw [← hnext, encodeSn, if_pos rfl, ← hvtUs]
    rfl

/-- What the sender has made of the SDUs that were submitted to it. -/
structure Sends (L max : ℕ) (submitted : List Bytes) (sent : List SentFrame) (s : UmEntity) : Prop where
  snLength : s.HasSnLength L
  consistent : (s.short 0).Consistent
  sizes : ∀ sdu ∈ s.inputSdus, sdu.data.length < 2048 ∧ sdu.data.length ≤ max
  vtUs : s.vtUs = .ofNat sent.length
  conserved : (assemble (sent.map (·.frame))).1 ++ s.inputSdus.map (·.data) = submitted
  restored : restore (assemble (sent.map (·.frame))).2 (s.inputSdus.map (·.rest)) = s.inputSdus.map (·.data)
  nothing : s.inputSdus = [] → (assemble (sent.map (·.frame))).2 = []
  fit : AllFit max sent

theorem Sends.dataReq (h : s.Sends L max submitted sent) {data : Bytes} (hne : data ≠ [])
    (hsize : data.length < 2048 ∧ data.length ≤ max) :
    (s.dataReq data).Sends L max (submitted ++ [data]) sent where
  snLength := h.snLength
  consistent := h.consistent.dataReq hne
  sizes := by
    intro sdu hsdu
    rcases List.mem_append.mp hsdu with hsdu | hsdu
    · exact h.sizes sdu hsdu
    · rw [List.mem_singleton.mp hsdu]
      exact hsize
  vtUs := h.vtUs
  conserved := by
    change _ ++ (s.inputSdus ++ [TxSdu.ofData data]).map (·.data) = _
    rw [List.map_append, ← List.append_assoc, h.conserved]
    rfl
  restored := restore_append h.restored h.nothing data
  nothing := fun hempty ↦ absurd hempty (List.append_ne_nil_of_right_ne_nil _ (List.cons_ne_nil _ _))
  fit := h.fit

/-- One more frame is taken from the queue. -/
theorem Sends.send {room : ℕ} {f : Frame UInt8} {sdus' : List TxSdu} (h : s.Sends L max submitted sent)
    (hpacks : Packs 1 room s.inputSdus f sdus') (hsdus : s.inputSdus = sdu :: sdus)
    (hfew : f.complete.length ≤ rlcUmSegmentNbMaxLiPerPdu) (nbBytes : ℕ) :
    Sends L max submitted (sent ++ [⟨sdu.sduRemainingSize = sdu.sduSize, f⟩])
      { s with
        inputSdus := sdus'
        bufferOccupancy := s.bufferOccupancy - f.payload.length
        nbBytesRequestedByMac := nbBytes
        vtUs := .ofNat (sent.length + 1) } := by
  have hmessages : ∀ message ∈ restore (assemble (sent.map (·.frame))).2 (s.inputSdus.map (·.rest)),
      message.length ≤ max := by
    rw [h.restored]
    intro message hmessage
    obtain ⟨sdu, hsdu, rfl⟩ := List.mem_map.mp hmessage
    exact (h.sizes sdu hsdu).2
  obtain ⟨hdone, hlast⟩ := hpacks.cut.messages_le hmessages
  have hfits : SentFrame.Fits ⟨sdu.sduRemainingSize = sdu.sduSize, f⟩ (assemble (sent.map (·.frame))).2 max := by
    refine ⟨fun hfirst ↦ ?_, hpacks.last_pos,
      segment_bounds hpacks h.consistent.remaining_pos fun sdu hsdu ↦ (h.sizes sdu hsdu).1, hfew, hdone, hlast⟩
    have hrestored := h.restored
    rw [hsdus] at hrestored
    exact output_nil_of_first hrestored (of_decide_eq_true hfirst)
  -- what is done of the queue are the messages that the frame completes
  obtain ⟨done, hdata, hlen⟩ := hpacks.data
  have hconserved := hpacks.cut.reassemble (assemble (sent.map (·.frame))).2
  rw [h.restored, hdata] at hconserved
  obtain ⟨hhanded, hrestored⟩ := List.append_inj hconserved (by rw [reassemble_length, hlen])
  have hframes : (sent ++ [⟨sdu.sduRemainingSize = sdu.sduSize, f⟩] : List SentFrame).map (·.frame) =
      sent.map (·.frame) ++ [f] := List.map_append
  refine ⟨h.snLength, h.consistent.send hpacks _, ?_, ?_, ?_, ?_, fun hempty ↦ ?_, h.fit.concat hfits⟩
  · intro sdu hsdu
    have hmem : sdu.data ∈ s.inputSdus.map (·.data) := by
      rw [hdata]
      exact List.mem_append_right _ (List.mem_map_of_mem hsdu)
    obtain ⟨sdu', hsdu', heq⟩ := List.mem_map.mp hmem
    rw [← heq]
    exact h.sizes sdu' hsdu'
  · rw [List.length_append, List.length_singleton]
  · rw [hframes, assemble_concat, hhanded, List.append_assoc, ← hdata]
    exact h.conserved
  · rw [hframes, assemble_concat]
    exact hrestored
  · rw [hframes, assemble_concat]
    exact reassemble_nil hpacks _ hempty

/-- A grant sends one more frame or none. -/
theorem Sends.getPdus (block : ℕ → UInt8) (h : s.Sends L max submitted sent) (hexact : s.Exact L nbBytes)
    (hfew : ∀ pdu ∈ (s.getPdus L nbBytes block).2, pdu.numFillSdu ≤ rlcUmSegmentNbMaxLiPerPdu) :
    ∃ more : List SentFrame, (s.getPdus L nbBytes block).1.Sends L max submitted (sent ++ more) ∧
      (s.getPdus L nbBytes block).2.toList.map (·.data) =
        more.mapIdx fun k p ↦ encodeSn L (k + sent.length) p := by
  by_cases hidle : nbBytes < s.txHeaderMinLengthInBytes + 1 ∨ s.inputSdus = []
  · rw [getPdus_idle block h.snLength hidle]
    refine ⟨[], ?_, rfl⟩
    rw [List.append_nil]
    exact ⟨h.1, h.2, h.3, h.4, h.5, h.6, h.7, h.8⟩
  rw [not_or, Nat.not_lt] at hidle
  obtain ⟨sdu, sdus, hsdus⟩ := List.exists_cons_of_ne_nil hidle.2
  obtain ⟨room, f, sdus', hpacks, hget⟩ := getPdus_eq block h.snLength h.consistent hidle.1 hsdus hexact
    h.vtUs
  rw [hget] at hfew ⊢
  have hnum := hfew _ rfl
  refine ⟨[⟨sdu.sduRemainingSize = sdu.sduSize, f⟩], h.send hpacks hsdus (Nat.le_of_succ_le hnum) nbBytes, ?_⟩
  rw [List.mapIdx_singleton, Nat.zero_add]
  rfl

end UmEntity

namespace UmReceiver

variable {r : UmReceiver} {w : ReorderWindow Bytes} {content content' : ℕ → Option Bytes → Prop}
  {P P' : ℕ → UmEntity → Prop} {M W L n i : ℕ}

theorem Follows.change (h : Follows M W content P r w) (hcontent : ∀ j, content' j (w.buffer j))
    (hP : P' w.next r.toUmEntity) : Follows M W content' P' r w :=
  ⟨⟨⟨h.modulo, h.stored, h.above, h.beyond, hP⟩, h.size, h.size_lt, h.size_le, h.vrUr, h.vrUh, h.vrUx, h.running⟩,
    h.good, h.modulo_gt, hcontent⟩

/-- A PDU has the lowest bits of its number. -/
theorem pduSn_encodeSn (hlength : r.rxSnLength = L) (hL : L = 5 ∨ L = 10) (n : ℕ) (p : SentFrame) :
    r.pduSn (UmEntity.encodeSn L n p) = n % 2 ^ L := by
  have hn : (UInt16.ofNat n).toNat = n % 2 ^ 16 := UInt16.toNat_ofNat
  rcases hL with rfl | rfl
  · rw [pduSn, if_neg (by omega), UmEntity.encodeSn, if_neg (by decide), UmEntity.sn_encodePdu, hn]
    omega
  · have hb1 := UmEntity.pdu10B1_toNat (UmEntity.framingInfo_lt p.fiFirst p.frame.ends)
      (p.frame.complete.length > 0) (.ofNat n)
    have hhigh : ((UmEntity.encodeSn 10 n p).getD 0 0 &&& 0x03).toNat =
        ((UmEntity.encodeSn 10 n p).getD 0 0).toNat % 4 := low_toNat _ (w := 2) (by decide)
    have hlow : (UmEntity.pdu10B2 (.ofNat n)).toNat = n % 256 := by
      rw [UmEntity.pdu10B2, UInt16.toNat_toUInt8, UInt16.toNat_and, hn]
      change (n % 2 ^ 16 &&& (2 ^ 8 - 1)) % 2 ^ 8 = n % 256
      rw [Nat.and_two_pow_sub_one_eq_mod]
      omega
    rw [pduSn, if_pos hlength, hhigh, Nat.shiftLeft_eq]
    change (UmEntity.pdu10B1 _ _ _).toNat % 4 * 2 ^ 8 + (UmEntity.pdu10B2 (.ofNat n)).toNat = n % 2 ^ 10
    rw [hb1, hlow, hn]
    omega

end UmReceiver

/-- A transmitting entity and a receiving one, with the SDUs that were submitted and the PDUs that were sent. -/
structure UmLink where
  txSnLength : ℕ
  sender : UmEntity
  submitted : List Bytes
  sent : List Bytes
  receiver : UmReceiver
  /-- The PDUs from here on have not arrived. -/
  high : ℕ

/-- A PDU may be delivered more than once, after later ones, or never. -/
inductive UmLinkEvent
  | submit (data : Bytes)
  | grant (nbBytes : ℕ) (block : ℕ → UInt8)
  | deliver (now k : ℕ)
  | checkTimer (now : ℕ)

namespace UmLink

def handle : UmLinkEvent → UmLink → Option UmLink
  | .submit data, l => some { l with sender := l.sender.dataReq data, submitted := l.submitted ++ [data] }
  | .grant nbBytes block, l =>
    let (sender, pdu) := l.sender.getPdus l.txSnLength nbBytes block
    some { l with sender := sender, sent := l.sent ++ pdu.toList.map (·.data) }
  | .deliver now k, l => do
    let pdu ← l.sent[k]?
    let receiver ← l.receiver.receiveProcessDar now pdu
    return { l with receiver := receiver, high := max l.high (k + 1) }
  | .checkTimer now, l => do
    let receiver ← l.receiver.checkTimerDarTimeOut now
    return { l with receiver := receiver }

/-- The state after the events; `none` if a loop of the receiver does not end. -/
def run : List UmLinkEvent → UmLink → Option UmLink
  | [], l => some l
  | e :: events, l => (l.handle e).bind (run events)

/-- An SDU fits a length indicator and the receiver, a PDU has no more length indicators than the receiver reads and no
bytes behind its data, and it is not delayed for more than half of the sequence numbers. -/
def Allowed (l : UmLink) : UmLinkEvent → Prop
  | .submit data => data ≠ [] ∧ data.length < 2048 ∧ data.length ≤ l.receiver.sduMaxSize
  | .grant nbBytes block => l.sender.Exact l.txSnLength nbBytes ∧
      ∀ pdu ∈ (l.sender.getPdus l.txSnLength nbBytes block).2, pdu.numFillSdu ≤ rlcUmSegmentNbMaxLiPerPdu
  | .deliver _ k => k < l.sent.length ∧ l.high ≤ k + l.receiver.rxUmWindowSize ∧
      k + max l.receiver.rxUmWindowSize 1 < l.high + l.receiver.rxSnModulo
  | .checkTimer _ => True

instance (l : UmLink) : ∀ e, Decidable (l.Allowed e)
  | .submit _ => inferInstanceAs (Decidable (_ ∧ _ ∧ _))
  | .grant _ _ => inferInstanceAs (Decidable (_ ∧ _))
  | .deliver _ _ => inferInstanceAs (Decidable (_ ∧ _ ∧ _))
  | .checkTimer _ => inferInstanceAs (Decidable True)

/-- Each event of the run is allowed where it happens. -/
def AllowedRun : List UmLinkEvent → UmLink → Prop
  | [], _ => True
  | e :: events, l => l.Allowed e ∧ ∀ l', l.handle e = some l' → AllowedRun events l'

/-- Both entities as `rlc_um_init` and `rlc_um_configure` leave them. -/
def start (isDataPlane : Bool) (timerReordering snFieldLength isMXch : ℕ) : UmLink where
  txSnLength := snFieldLength
  sender := (UmReceiver.init.configure timerReordering snFieldLength snFieldLength isMXch).toUmEntity
  submitted := []
  sent := []
  receiver :=
    { UmReceiver.init.configure timerReordering snFieldLength snFieldLength isMXch with isDataPlane := isDataPlane }
  high := 0

instance decidableAllowedRun : ∀ events (l : UmLink), Decidable (l.AllowedRun events)
  | [], _ => inferInstanceAs (Decidable True)
  | e :: events, l =>
    have (l' : UmLink) : Decidable (l'.AllowedRun events) := decidableAllowedRun events l'
    match h : l.handle e with
    | none => decidable_of_iff (l.Allowed e) (by simp only [AllowedRun, h, reduceCtorEq, false_implies, implies_true,
        and_true])
    | some l' => decidable_of_iff (l.Allowed e ∧ l'.AllowedRun events) (by
        simp only [AllowedRun, h, Option.some.injEq, forall_eq'])

variable {l : UmLink} {sent : List SentFrame} {w : ReorderWindow Bytes} {L size : ℕ}

/-- The receiver has what the sender has sent, as far as it has arrived. -/
structure InStep (L size : ℕ) (sent : List SentFrame) (w : ReorderWindow Bytes) (l : UmLink) : Prop where
  snLength : l.txSnLength = L
  length : L = 5 ∨ L = 10
  sends : l.sender.Sends L size l.submitted sent
  pdus : l.sent = sent.mapIdx (UmEntity.encodeSn L)
  follows : UmReceiver.Follows (2 ^ L) l.receiver.rxUmWindowSize (UmEntity.SentPdu L (2 ^ L) sent)
    (UmEntity.Collected L (2 ^ L) size sent) l.receiver w
  high : w.high = 2 ^ L + l.high

namespace InStep

theorem receiver_length (h : l.InStep L size sent w) : l.receiver.rxSnLength = L ∧ l.receiver.sduMaxSize = size := by
  obtain ⟨hlength, hmax, -⟩ := h.follows.reassembled
  exact ⟨hlength, hmax⟩

/-- The SDUs that are handed up are submitted ones, in their order. -/
theorem dataInd (h : l.InStep L size sent w) : l.receiver.dataInd.Sublist l.submitted := by
  obtain ⟨-, -, c, hc, hcollects, -⟩ := h.follows.reassembled
  have hle : UmEntity.framesTo sent (w.next - 2 ^ L) <+: sent.map (·.frame) :=
    (List.take_prefix _ _).map _
  rw [hcollects.dataInd, ← h.sends.conserved]
  exact (hc.delivered.trans (assemble_mono hle).sublist).trans (List.sublist_append_left _ _)

theorem submit (h : l.InStep L size sent w) {data : Bytes} (hallowed : l.Allowed (.submit data)) :
    ∃ l', l.handle (.submit data) = some l' ∧ l'.InStep L size sent w := by
  obtain ⟨hne, hlt, hle⟩ := hallowed
  rw [h.receiver_length.2] at hle
  exact ⟨_, rfl, h.snLength, h.length, h.sends.dataReq hne ⟨hlt, hle⟩, h.pdus, h.follows, h.high⟩

theorem grant (h : l.InStep L size sent w) {nbBytes : ℕ} {block : ℕ → UInt8}
    (hallowed : l.Allowed (.grant nbBytes block)) :
    ∃ l' more, l.handle (.grant nbBytes block) = some l' ∧ l'.InStep L size (sent ++ more) w := by
  obtain ⟨hexact, hfew⟩ := hallowed
  rw [h.snLength] at hexact hfew
  obtain ⟨more, hsends, hpdus⟩ := h.sends.getPdus block hexact hfew
  have hfollows := h.follows.change (fun j ↦ (h.follows.content j).append more) (h.follows.reassembled.append more)
  refine ⟨_, more, rfl, h.snLength, h.length, ?_, ?_, hfollows, h.high⟩
  · rw [h.snLength]
    exact hsends
  · change l.sent ++ (l.sender.getPdus l.txSnLength nbBytes block).2.toList.map (·.data) = _
    rw [h.snLength, hpdus, h.pdus, List.mapIdx_append]

theorem deliver (h : l.InStep L size sent w) {now k : ℕ} (hallowed : l.Allowed (.deliver now k)) :
    ∃ l' w', l.handle (.deliver now k) = some l' ∧ l'.InStep L size sent w' := by
  obtain ⟨hk, hlow, hhigh⟩ := hallowed
  have hmodulo : l.receiver.rxSnModulo = 2 ^ L := h.follows.modulo
  have hw := h.high
  rw [h.pdus, List.length_mapIdx] at hk
  have hsent : l.sent[k]? = some (UmEntity.encodeSn L k sent[k]) := by
    rw [h.pdus, List.getElem?_mapIdx, List.getElem?_eq_getElem hk]
    rfl
  have hrule := UmEntity.collected_rule (M := 2 ^ L) h.length h.sends.fit
  have hsn : l.receiver.pduSn (UmEntity.encodeSn L k sent[k]) = (2 ^ L + k) % 2 ^ L := by
    rw [UmReceiver.pduSn_encodeSn h.receiver_length.1 h.length, Nat.add_mod_left]
  obtain ⟨receiver, hreceive, hfollows, -⟩ := h.follows.receive hrule (i := 2 ^ L + k) (by omega) (by omega)
    (by omega) hsn (fun pdu hpdu ↦ ⟨k, sent[k], rfl, List.getElem?_eq_getElem hk, (Option.some.inj hpdu).symm⟩) now
  have hsize : receiver.rxUmWindowSize = l.receiver.rxUmWindowSize := hfollows.size
  generalize hw' : w.receive _ _ (2 ^ L + k) _ = w' at hfollows
  refine ⟨{ l with receiver := receiver, high := max l.high (k + 1) }, w', ?_, h.snLength, h.length, h.sends, h.pdus,
    ?_, ?_⟩
  · rw [UmLink.handle, hsent]
    simp only [Option.bind_eq_bind, Option.bind_some, hreceive]
    rfl
  · rw [hsize]
    exact hfollows
  · rw [← hw', h.follows.good.receive_high]
    change max w.high (2 ^ L + k + 1) = 2 ^ L + max l.high (k + 1)
    omega

theorem checkTimer (h : l.InStep L size sent w) (now : ℕ) :
    ∃ l' w', l.handle (.checkTimer now) = some l' ∧ l'.InStep L size sent w' := by
  have hrule := UmEntity.collected_rule (M := 2 ^ L) h.length h.sends.fit
  obtain ⟨receiver, w', hcheck, hexpired, hfollows, -⟩ := h.follows.checkTimer hrule now
  have hsize : receiver.rxUmWindowSize = l.receiver.rxUmWindowSize := hfollows.size
  have hhigh : w'.high = w.high := by
    rcases hexpired with rfl | ⟨-, rfl⟩
    · rfl
    · rw [ReorderWindow.expire]
      split_ifs
      · rfl
      · rfl
  refine ⟨{ l with receiver := receiver }, w', ?_, h.snLength, h.length, h.sends, h.pdus, ?_, hhigh.trans h.high⟩
  · rw [UmLink.handle]
    simp only [Option.bind_eq_bind, hcheck]
    rfl
  · rw [hsize]
    exact hfollows

/-- Each event that is allowed keeps the two sides in step. -/
theorem handle (h : l.InStep L size sent w) {e : UmLinkEvent} (hallowed : l.Allowed e) :
    ∃ l' sent' w', l.handle e = some l' ∧ l'.InStep L size sent' w' := by
  cases e with
  | submit data =>
    obtain ⟨l', hl', hstep⟩ := h.submit hallowed
    exact ⟨l', _, _, hl', hstep⟩
  | grant nbBytes block =>
    obtain ⟨l', more, hl', hstep⟩ := h.grant hallowed
    exact ⟨l', _, _, hl', hstep⟩
  | deliver now k =>
    obtain ⟨l', w', hl', hstep⟩ := h.deliver hallowed
    exact ⟨l', _, w', hl', hstep⟩
  | checkTimer now =>
    obtain ⟨l', w', hl', hstep⟩ := h.checkTimer now
    exact ⟨l', _, w', hl', hstep⟩

theorem run (h : l.InStep L size sent w) {events : List UmLinkEvent} (hallowed : AllowedRun events l) :
    ∃ l' sent' w', l.run events = some l' ∧ l'.InStep L size sent' w' := by
  induction events generalizing l sent w with
  | nil => exact ⟨l, sent, w, rfl, h⟩
  | cons e events ih =>
    obtain ⟨hfirst, hrest⟩ := hallowed
    obtain ⟨l₁, sent₁, w₁, hhandle, hstep⟩ := h.handle hfirst
    rw [UmLink.run, hhandle, Option.bind_some]
    exact ih hstep (hrest l₁ hhandle)

end InStep

/-- Nothing has been submitted, sent or received. -/
structure Fresh (L : ℕ) (l : UmLink) : Prop where
  txSnLength : l.txSnLength = L
  submitted : l.submitted = []
  sent : l.sent = []
  high : l.high = 0
  sender : l.sender.HasSnLength L ∧ l.sender.inputSdus = [] ∧ l.sender.bufferOccupancy = 0 ∧ l.sender.vtUs = 0
  rxSnLength : l.receiver.rxSnLength = L
  rxSnModulo : l.receiver.rxSnModulo = 2 ^ L
  window : l.receiver.rxUmWindowSize < l.receiver.rxSnModulo
  empty : l.receiver.vrUr = 0 ∧ l.receiver.vrUh = 0 ∧ l.receiver.darBuffer = fun _ ↦ none
  stopped : l.receiver.tReordering.running = false
  dataInd : l.receiver.dataInd = []
  construction : l.receiver.outputSduInConstruction = none ∧ l.receiver.reassemblyMissingSnDetected = false

theorem fresh_start (isDataPlane : Bool) (timerReordering : ℕ) {snFieldLength : ℕ} (isMXch : ℕ)
    (hlength : snFieldLength = 5 ∨ snFieldLength = 10) :
    (start isDataPlane timerReordering snFieldLength isMXch).Fresh snFieldLength := by
  rcases hlength with rfl | rfl
  · refine ⟨rfl, rfl, rfl, rfl, ⟨Or.inl ⟨rfl, rfl⟩, rfl, rfl, rfl⟩, rfl, rfl, ?_, ⟨rfl, rfl, rfl⟩, rfl, rfl, rfl, rfl⟩
    change (if isMXch > 0 then 0 else 16) < 32
    split_ifs
    · decide
    · decide
  · refine ⟨rfl, rfl, rfl, rfl, ⟨Or.inr ⟨rfl, rfl, rfl, rfl⟩, rfl, rfl, rfl⟩, rfl, rfl, ?_, ⟨rfl, rfl, rfl⟩, rfl, rfl,
      rfl, rfl⟩
    change (if isMXch > 0 then 0 else 512) < 1024
    split_ifs
    · decide
    · decide

theorem Fresh.inStep (h : l.Fresh L) (hlength : L = 5 ∨ L = 10) :
    l.InStep L l.receiver.sduMaxSize [] ⟨2 ^ L, 2 ^ L, 2 ^ L, fun _ ↦ none, false⟩ := by
  obtain ⟨hsnLength, hqueue, hoccupancy, hvtUs⟩ := h.sender
  obtain ⟨hvrUr, hvrUh, hbuffer⟩ := h.empty
  have hwidth : l.receiver.rxSnLength = 10 ∧ l.receiver.rxSnModulo = 1024 ∨
      l.receiver.rxSnLength ≠ 10 ∧ l.receiver.rxSnModulo = 32 := by
    rw [h.rxSnLength, h.rxSnModulo]
    rcases hlength with rfl | rfl
    · exact Or.inr ⟨by decide, rfl⟩
    · exact Or.inl ⟨rfl, rfl⟩
  have hsound := UmReceiver.Sound.initial hwidth h.window hvrUr hvrUh hbuffer h.stopped
  rw [h.rxSnModulo] at hsound
  have hcollects : UmEntity.Collects Collector.start (2 ^ L) l.receiver.toUmEntity := by
    refine ⟨h.dataInd, fun hnone ↦ absurd hnone (Option.some_ne_none _), fun output hkept ↦ ?_⟩
    rw [← Option.some.inj hkept]
    exact ⟨h.construction.2, Or.inl ⟨h.construction.1, rfl⟩, Or.inl rfl⟩
  refine ⟨h.txSnLength, hlength, ⟨hsnLength, ⟨rfl, ?_, ?_⟩, ?_, hvtUs, ?_, ?_, fun _ ↦ rfl, ?_⟩, h.sent,
    hsound.toFollows.change (fun _ _ hnone ↦ absurd hnone (Option.not_mem_none _)) ⟨h.rxSnLength, rfl,
      Collector.start, ?_, hcollects, fun _ ↦ ?_⟩, ?_⟩
  · change l.sender.bufferOccupancy = (l.sender.inputSdus.map (·.sduRemainingSize)).sum
    rw [hqueue, hoccupancy]
    rfl
  · change ∀ sdu ∈ l.sender.inputSdus, 0 < sdu.sduRemainingSize
    rw [hqueue]
    exact fun _ hmem ↦ absurd hmem List.not_mem_nil
  · rw [hqueue]
    exact fun _ hmem ↦ absurd hmem List.not_mem_nil
  · rw [hqueue, h.submitted]
    rfl
  · rw [hqueue]
    rfl
  · exact fun k p hp ↦ absurd hp (by rw [List.getElem?_nil]; exact fun h ↦ nomatch h)
  · change Collector.InStep (UmEntity.framesTo [] (2 ^ L - 2 ^ L)) Collector.start
    rw [UmEntity.framesTo, List.take_nil]
    exact Collector.inStep_start
  · change 2 ^ L - 2 ^ L ≤ 0
    omega
  · exact congrArg (2 ^ L + ·) h.high.symm

/-- Whatever PDUs are lost, repeated or delayed: the SDUs that are handed up are submitted ones, byte for byte, each at
most once and in their order. -/
theorem dataInd_sublist {isDataPlane : Bool} {timerReordering snFieldLength isMXch : ℕ}
    (hlength : snFieldLength = 5 ∨ snFieldLength = 10) {events : List UmLinkEvent}
    (hallowed : AllowedRun events (start isDataPlane timerReordering snFieldLength isMXch)) :
    ∃ l, run events (start isDataPlane timerReordering snFieldLength isMXch) = some l ∧
      l.receiver.dataInd.Sublist l.submitted := by
  have hfresh := fresh_start isDataPlane timerReordering isMXch hlength
  obtain ⟨l, sent, w, hrun, hstep⟩ := (hfresh.inStep hlength).run hallowed
  exact ⟨l, hrun, hstep.dataInd⟩

/-- Three SDUs in four PDUs, of which the second is lost, the last arrives before the third and the first twice. -/
def lossyEvents : List UmLinkEvent :=
  [.submit [1, 2, 3], .submit [4, 5], .grant 3 fun _ ↦ 0, .grant 4 fun _ ↦ 0, .submit [6], .grant 2 fun _ ↦ 0,
    .grant 9 fun _ ↦ 0, .deliver 0 0, .deliver 1 3, .deliver 2 0, .deliver 3 2, .checkTimer 60]

theorem lossyEvents_sublist : ∃ l, run lossyEvents (start true 50 5 0) = some l ∧
    l.receiver.dataInd.Sublist l.submitted :=
  dataInd_sublist (Or.inl rfl) (by decide +kernel)

end UmLink

end EdgeSlice.Rlc
