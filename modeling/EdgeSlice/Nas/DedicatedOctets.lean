import EdgeSlice.Nas.DedicatedRequest

/-! The octets that the encoder of the request writes. -/

namespace EdgeSlice.Nas

open ByteMemory OctetReader Function

variable {mem : ℕ → UInt8} {buffer encoded len : ℕ}

namespace ComponentType

/-- The octets that are left of a component when the next one has been written. -/
def written (f : FilterContents) (c : ComponentType) : List UInt8 := c.code :: (c.encode f).take c.size

theorem encode_length (f : FilterContents) (c : ComponentType) : (c.encode f).length = c.reads := by
  cases c <;> simp [encode, reads, size, TRAFFIC_FLOW_TEMPLATE_IPV4_ADDR_SIZE,
    TRAFFIC_FLOW_TEMPLATE_IPV6_ADDR_SIZE]

@[simp] theorem written_length (f : FilterContents) (c : ComponentType) :
    (c.written f).length = 1 + c.size := by
  have hle : c.size ≤ (c.encode f).length := (encode_length f c).symm ▸ size_le_reads c
  rw [written, List.length_cons, List.length_take, Nat.min_eq_left hle, Nat.add_comm]

end ComponentType

namespace FilterContents

/-- The components that the flags name, in the order of the flags. -/
def components (f : FilterContents) : List ComponentType :=
  ComponentType.all.filter fun c ↦ f.flags &&& c.flag = c.flag

def octets (f : FilterContents) : List UInt8 := f.components.flatMap (·.written f)

end FilterContents

namespace FilterEntry

def first (entry : FilterEntry) : UInt8 :=
  (UInt8.ofNat entry.direction.toNat <<< 4) ||| UInt8.ofNat entry.identifier.toNat

def octets (entry : FilterEntry) : List UInt8 :=
  entry.first :: entry.evalPrecedence :: UInt8.ofNat entry.packetfilter.octets.length ::
    entry.packetfilter.octets

end FilterEntry

namespace TrafficFlowTemplate

def filters (tft : TrafficFlowTemplate) : List UInt8 :=
  (List.range' 0 tft.numberofpacketfilters.toNat).flatMap fun j ↦ (tft.packetfilters j).octets

def first (tft : TrafficFlowTemplate) : UInt8 :=
  (UInt8.ofNat tft.tftoperationcode.toNat <<< 5) |||
    (UInt8.ofNat tft.ebit.toNat <<< 4) ||| UInt8.ofNat tft.numberofpacketfilters.toNat

def contents (tft : TrafficFlowTemplate) : List UInt8 := tft.first :: tft.filters

def octets (tft : TrafficFlowTemplate) : List UInt8 := UInt8.ofNat tft.contents.length :: tft.contents

end TrafficFlowTemplate

def presentOctets (present : Bool) (r : EpsQosBitRates) : List UInt8 := if present then r.octets else []

namespace EpsQualityOfService

def contents (qos : EpsQualityOfService) : List UInt8 :=
  qos.qci :: (presentOctets qos.bitRatesPresent qos.bitRates ++
    presentOctets qos.bitRatesExtPresent qos.bitRatesExt)

def octets (qos : EpsQualityOfService) : List UInt8 := UInt8.ofNat qos.contents.length :: qos.contents

end EpsQualityOfService

namespace ProtocolConfigurationOptions

def container (pco : ProtocolConfigurationOptions) (i : ℕ) : List UInt8 :=
  beBytes 2 (pco.protocolid i).toNat ++ [pco.lengthofprotocolid i] ++ pco.protocolidcontents i

def first (pco : ProtocolConfigurationOptions) : UInt8 :=
  (1 : UInt8) <<< 7 ||| UInt8.ofNat pco.configurationprotol.toNat

def containers (pco : ProtocolConfigurationOptions) : List UInt8 :=
  (List.range' 0 pco.numProtocolIdOrContainerId.toNat).flatMap pco.container

def contents (pco : ProtocolConfigurationOptions) : List UInt8 := pco.first :: pco.containers

def octets (pco : ProtocolConfigurationOptions) : List UInt8 :=
  PROTOCOL_CONFIGURATION_OPTIONS_IEI :: UInt8.ofNat pco.contents.length :: pco.contents

end ProtocolConfigurationOptions

/-- An encoder has returned after it wrote the octets from `p` on. -/
def Writes (mem : ℕ → UInt8) (p : ℕ) (bs : List UInt8) (r : Except ℤ ((ℕ → UInt8) × ℕ)) : Prop :=
  ∃ mem', r = .ok (mem', bs.length) ∧ Filled mem p bs mem'

theorem encodeContents_filled (f : FilterContents) (mem : ℕ → UInt8) (buffer encoded : ℕ) :
    (encodeContents mem buffer f encoded).2 = encoded + f.octets.length ∧
      Filled mem (buffer + encoded) f.octets (encodeContents mem buffer f encoded).1 := by
  have hfold : ∀ (cs : List ComponentType) (mem : ℕ → UInt8) (encoded : ℕ),
      let cs' := cs.filter fun c ↦ f.flags &&& c.flag = c.flag
      let r := cs.foldl (fun m c ↦
        if f.flags &&& c.flag = c.flag then encodeComponent m.1 buffer f m.2 c else m) (mem, encoded)
      r.2 = encoded + (cs'.flatMap (·.written f)).length ∧
        Filled mem (buffer + encoded) (cs'.flatMap (·.written f)) r.1 := by
    intro cs
    induction cs with
    | nil => exact fun mem encoded ↦ ⟨rfl, .refl mem _⟩
    | cons c cs ih =>
      intro mem encoded
      by_cases hc : f.flags &&& c.flag = c.flag
      · have hfirst : Filled mem (buffer + encoded) (c.written f)
            (encodeComponent mem buffer f encoded c).1 := by
          have hsplit : c.code :: c.encode f = c.written f ++ (c.encode f).drop c.size := by
            rw [ComponentType.written, List.cons_append, List.take_append_drop]
          rw [encodeComponent, hsplit]
          exact .store mem _ _ _
        obtain ⟨hlen, hrest⟩ := ih (encodeComponent mem buffer f encoded c).1 (encoded + 1 + c.size)
        have hpos : buffer + (encoded + 1 + c.size) = buffer + encoded + (c.written f).length := by
          rw [ComponentType.written_length]
          omega
        simp only [List.foldl_cons, List.filter_cons, hc, if_true, decide_true, List.flatMap_cons]
        refine ⟨?_, hfirst.append ?_⟩
        · rw [List.length_append, ComponentType.written_length]
          exact hlen.trans (by omega)
        · rw [← hpos]
          exact hrest
      · simp only [List.foldl_cons, List.filter_cons, hc, if_false, decide_false, Bool.false_eq_true]
        exact ih mem encoded
  exact hfold ComponentType.all mem encoded

theorem encodeFilter_eq (entry : FilterEntry) (mem : ℕ → UInt8) (buffer encoded : ℕ) :
    encodeFilter mem buffer entry encoded =
      let r := encodeContents (store mem (buffer + encoded) [entry.first, entry.evalPrecedence]) buffer
        entry.packetfilter (encoded + 3)
      (update r.1 (buffer + encoded + 2) (UInt8.ofNat (r.2 - (encoded + 3))), r.2) := rfl

theorem encodeFilter_filled (entry : FilterEntry) (mem : ℕ → UInt8) (buffer encoded : ℕ) :
    (encodeFilter mem buffer entry encoded).2 = encoded + entry.octets.length ∧
      Filled mem (buffer + encoded) entry.octets (encodeFilter mem buffer entry encoded).1 := by
  rw [encodeFilter_eq]
  have hstart := (Filled.stored mem (buffer + encoded) [entry.first, entry.evalPrecedence]).skip
  obtain ⟨hlen, hcontents⟩ := encodeContents_filled entry.packetfilter
    (store mem (buffer + encoded) [entry.first, entry.evalPrecedence]) buffer (encoded + 3)
  have hall := hstart.append hcontents
  simp only [List.append_assoc, List.singleton_append] at hall
  constructor
  · refine hlen.trans ?_
    simp only [FilterEntry.octets, List.length_cons]
    omega
  · dsimp only
    rw [hlen, Nat.add_sub_cancel_left]
    exact hall.set

theorem encodeFilters_filled (buffer len : ℕ) (packetfilters : ℕ → FilterEntry) (n i : ℕ)
    (mem : ℕ → UInt8) (encoded : ℕ) (hlen : len < 4294967296)
    (hroom : encoded + ((List.range' i n).flatMap fun j ↦ (packetfilters j).octets).length ≤ len) :
    let bs := (List.range' i n).flatMap fun j ↦ (packetfilters j).octets
    let r := encodeFilters buffer len packetfilters n i mem encoded
    r.2 = encoded + bs.length ∧ Filled mem (buffer + encoded) bs r.1 := by
  induction n generalizing i mem encoded with
  | zero => exact ⟨rfl, .refl mem _⟩
  | succ n ih =>
    obtain ⟨hsize, hfirst⟩ := encodeFilter_filled (packetfilters i) mem buffer encoded
    rw [List.range'_succ, List.flatMap_cons, List.length_append] at hroom
    have hpos : 0 < (packetfilters i).octets.length := Nat.succ_pos _
    have hleft : uint32Sub len encoded > 0 := by
      rw [uint32Sub_of_le (by omega) hlen]
      omega
    obtain ⟨hrest, hfilled⟩ := ih (i + 1) (encodeFilter mem buffer (packetfilters i) encoded).1
      (encodeFilter mem buffer (packetfilters i) encoded).2 (by omega)
    simp only [encodeFilters, hleft, if_true, List.range'_succ, List.flatMap_cons, List.length_append]
    refine ⟨by omega, hfirst.append ?_⟩
    rw [hsize, ← Nat.add_assoc] at hfilled
    rw [hsize]
    exact hfilled

@[simp] theorem encodeIei_zero (mem : ℕ → UInt8) (p : ℕ) : encodeIei 0 mem p = (mem, 0) := rfl

theorem encodeTrafficFlowTemplate_eq {tft : TrafficFlowTemplate}
    (hop : hasFilters tft.tftoperationcode = true) (mem : ℕ → UInt8) (p : ℕ)
    (hmin : TRAFFIC_FLOW_TEMPLATE_MINIMUM_LENGTH ≤ len) :
    encodeTrafficFlowTemplate tft 0 mem p len =
      let r := encodeFilters (p + 2) (uint32Sub len 2) tft.packetfilters tft.numberofpacketfilters.toNat 0
        (update mem (p + 1) tft.first) 0
      .ok (update r.1 p (UInt8.ofNat (2 + r.2 - 1)), 2 + r.2) := by
  have hdelete := ne_delete_of_hasFilters hop
  simp only [encodeTrafficFlowTemplate, Nat.not_lt.2 hmin, encodeIei_zero, hdelete, hop, if_true, if_false]
  rfl

theorem encodeTrafficFlowTemplate_writes {tft : TrafficFlowTemplate}
    (hop : hasFilters tft.tftoperationcode = true) (mem : ℕ → UInt8) (p len : ℕ) (hlen : len < 4294967296)
    (hroom : tft.octets.length ≤ len) :
    Writes mem p tft.octets (encodeTrafficFlowTemplate tft 0 mem p len) := by
  have hsize : tft.octets.length = tft.filters.length + 2 := rfl
  have hmin : TRAFFIC_FLOW_TEMPLATE_MINIMUM_LENGTH ≤ len := by
    rw [TRAFFIC_FLOW_TEMPLATE_MINIMUM_LENGTH]
    omega
  have hleft : uint32Sub len 2 = len - 2 := uint32Sub_of_le hmin hlen
  obtain ⟨hfilters, hfilled⟩ := encodeFilters_filled (p + 2) (uint32Sub len 2) tft.packetfilters
    tft.numberofpacketfilters.toNat 0 (update mem (p + 1) tft.first) 0 (by omega)
    (by change 0 + tft.filters.length ≤ _; omega)
  have hall := (Filled.singleton mem (p + 1) tft.first).append hfilled
  rw [encodeTrafficFlowTemplate_eq hop mem p hmin]
  refine ⟨_, ?_, hall.prepend⟩
  have hlast : 2 + tft.filters.length - 1 = tft.contents.length := by
    rw [TrafficFlowTemplate.contents, List.length_cons]
    omega
  dsimp only
  rw [hsize, hfilters, Nat.zero_add, ← hlast, Nat.add_comm tft.filters.length]
  rfl

/-- Bit rates where they are present. -/
def encodePresentBitRates (present : Bool) (r : EpsQosBitRates) (mem : ℕ → UInt8) (p : ℕ) :
    (ℕ → UInt8) × ℕ :=
  if present then encodeEpsQosBitRates r mem p else (mem, 0)

theorem encodePresentBitRates_filled (present : Bool) (r : EpsQosBitRates) (mem : ℕ → UInt8) (p : ℕ) :
    (encodePresentBitRates present r mem p).2 = (presentOctets present r).length ∧
      Filled mem p (presentOctets present r) (encodePresentBitRates present r mem p).1 := by
  cases present with
  | false => exact ⟨rfl, .refl mem p⟩
  | true => exact ⟨rfl, .stored mem p r.octets⟩

theorem encodeEpsQualityOfService_eq (qos : EpsQualityOfService) (mem : ℕ → UInt8) (p : ℕ)
    (hmin : ¬len < EPS_QUALITY_OF_SERVICE_MINIMUM_LENGTH) :
    encodeEpsQualityOfService qos 0 mem p len =
      let m := encodePresentBitRates qos.bitRatesPresent qos.bitRates (update mem (p + 1) qos.qci) (p + 2)
      let m' := encodePresentBitRates qos.bitRatesExtPresent qos.bitRatesExt m.1 (p + 2 + m.2)
      .ok (update m'.1 p (UInt8.ofNat (1 + m.2 + m'.2)), 2 + m.2 + m'.2) := by
  rw [encodeEpsQualityOfService, if_neg hmin]
  cases hrates : qos.bitRatesPresent <;> cases hext : qos.bitRatesExtPresent <;> rfl

theorem encodeEpsQualityOfService_writes (qos : EpsQualityOfService) (mem : ℕ → UInt8) (p len : ℕ)
    (hroom : qos.octets.length ≤ len) :
    Writes mem p qos.octets (encodeEpsQualityOfService qos 0 mem p len) := by
  have hmin : ¬len < EPS_QUALITY_OF_SERVICE_MINIMUM_LENGTH := by
    simp only [EPS_QUALITY_OF_SERVICE_MINIMUM_LENGTH, EpsQualityOfService.octets,
      EpsQualityOfService.contents, List.length_cons] at hroom ⊢
    omega
  obtain ⟨hsize, hrates⟩ :=
    encodePresentBitRates_filled qos.bitRatesPresent qos.bitRates (update mem (p + 1) qos.qci) (p + 2)
  obtain ⟨hsizeExt, hext⟩ := encodePresentBitRates_filled qos.bitRatesExtPresent qos.bitRatesExt
    (encodePresentBitRates qos.bitRatesPresent qos.bitRates (update mem (p + 1) qos.qci) (p + 2)).1
    (p + 2 + (presentOctets qos.bitRatesPresent qos.bitRates).length)
  have hall := (Filled.singleton mem (p + 1) qos.qci).append (hrates.append hext)
  have hcontents : qos.contents.length = 1 + (presentOctets qos.bitRatesPresent qos.bitRates).length +
      (presentOctets qos.bitRatesExtPresent qos.bitRatesExt).length := by
    simp only [EpsQualityOfService.contents, List.length_cons, List.length_append]
    omega
  rw [encodeEpsQualityOfService_eq qos mem p hmin]
  refine ⟨_, ?_, hall.prepend⟩
  dsimp only
  rw [hsize, hsizeExt, EpsQualityOfService.octets, List.length_cons, hcontents]
  refine congrArg Except.ok (Prod.ext rfl ?_)
  dsimp only
  omega

theorem encodeOctetString_writes (bs : OctetString) (mem : ℕ → UInt8) (p len : ℕ) (hroom : bs.length ≤ len) :
    Writes mem p bs (encodeOctetString bs mem p len) := by
  rw [encodeOctetString]
  cases bs with
  | nil => exact ⟨mem, rfl, .refl mem p⟩
  | cons b bs =>
    have hpos : (b :: bs).length > 0 := Nat.succ_pos bs.length
    rw [if_pos hpos, if_neg (Nat.not_lt.2 hroom)]
    exact ⟨_, rfl, .stored mem p (b :: bs)⟩

theorem encodeContainers_filled (pco : ProtocolConfigurationOptions) (buffer : ℕ) (hlen : len < 4294967296)
    (n i : ℕ) (mem : ℕ → UInt8) (encoded : ℕ)
    (hroom : encoded + ((List.range' i n).flatMap pco.container).length ≤ len) :
    ∃ mem', encodeContainers pco buffer len n i mem encoded =
        .ok (mem', encoded + ((List.range' i n).flatMap pco.container).length) ∧
      Filled mem (buffer + encoded) ((List.range' i n).flatMap pco.container) mem' := by
  induction n generalizing i mem encoded with
  | zero => exact ⟨mem, rfl, .refl mem _⟩
  | succ n ih =>
    let head := beBytes 2 (pco.protocolid i).toNat ++ [pco.lengthofprotocolid i]
    have hhead : head.length = 3 := by simp [head]
    have hsize : (pco.container i).length = 3 + (pco.protocolidcontents i).length := by
      rw [← hhead, ← List.length_append]
      rfl
    rw [List.range'_succ, List.flatMap_cons, List.length_append] at hroom
    have hleft : uint32Sub len (encoded + 3) = len - (encoded + 3) := uint32Sub_of_le (by omega) hlen
    obtain ⟨mem₁, hok, hcontents⟩ := encodeOctetString_writes (pco.protocolidcontents i)
      (store mem (buffer + encoded) head) (buffer + (encoded + 3)) (uint32Sub len (encoded + 3)) (by omega)
    obtain ⟨mem₂, hrest, hfilled⟩ :=
      ih (i + 1) mem₁ (encoded + 3 + (pco.protocolidcontents i).length) (by omega)
    have hcontainer : Filled mem (buffer + encoded) (pco.container i) mem₁ := by
      refine (Filled.stored mem (buffer + encoded) head).append ?_
      rw [hhead, Nat.add_assoc]
      exact hcontents
    refine ⟨mem₂, ?_, ?_⟩
    · simp only [encodeContainers]
      rw [hok, List.range'_succ, List.flatMap_cons, List.length_append, hsize, ← Nat.add_assoc,
        ← Nat.add_assoc]
      exact hrest
    · rw [List.range'_succ, List.flatMap_cons]
      refine hcontainer.append ?_
      rw [hsize, Nat.add_assoc, ← Nat.add_assoc encoded]
      exact hfilled

theorem encodeProtocolConfigurationOptions_writes (pco : ProtocolConfigurationOptions) (mem : ℕ → UInt8)
    (p len : ℕ) (hlen : len < 4294967296) (hroom : pco.octets.length ≤ len) :
    Writes mem p pco.octets
      (encodeProtocolConfigurationOptions pco PROTOCOL_CONFIGURATION_OPTIONS_IEI mem p len) := by
  have hsize : pco.octets.length = 3 + pco.containers.length := by
    simp only [ProtocolConfigurationOptions.octets, ProtocolConfigurationOptions.contents, List.length_cons]
    omega
  have hmin : ¬len < PROTOCOL_CONFIGURATION_OPTIONS_MINIMUM_LENGTH := by
    rw [PROTOCOL_CONFIGURATION_OPTIONS_MINIMUM_LENGTH]
    omega
  let iei := update mem p PROTOCOL_CONFIGURATION_OPTIONS_IEI
  obtain ⟨mem', hok, hfilled⟩ := encodeContainers_filled pco p hlen pco.numProtocolIdOrContainerId.toNat 0
    (update iei (p + 2) pco.first) 3 (hsize ▸ hroom)
  have hrest := (Filled.singleton iei (p + 2) pco.first).append hfilled
  refine ⟨_, ?_, (Filled.singleton mem p PROTOCOL_CONFIGURATION_OPTIONS_IEI).append hrest.prepend⟩
  rw [encodeProtocolConfigurationOptions, if_neg hmin]
  change (encodeContainers pco p len _ 0 (update iei (p + 2) pco.first) 3 >>= _) = _
  rw [hok, hsize]
  have hlast : 3 + pco.containers.length - 1 - 1 = pco.contents.length := by
    simp only [ProtocolConfigurationOptions.contents, List.length_cons]
    omega
  rw [← hlast]
  rfl

section Request

variable {ν : Type}

namespace ActivateDedicatedEpsBearerContextRequest

def pcoPresent (msg : ActivateDedicatedEpsBearerContextRequest ν) : Bool :=
  msg.presencemask &&& PROTOCOL_CONFIGURATION_OPTIONS_PRESENT = PROTOCOL_CONFIGURATION_OPTIONS_PRESENT

/-- Without the optional elements. -/
def mandatory (msg : ActivateDedicatedEpsBearerContextRequest ν) : List UInt8 :=
  (msg.linkedepsbeareridentity &&& 0x0f) :: (msg.epsqos.octets ++ msg.tft.octets)

def octets (msg : ActivateDedicatedEpsBearerContextRequest ν) : List UInt8 :=
  msg.mandatory ++ if msg.pcoPresent then msg.protocolconfigurationoptions.octets else []

end ActivateDedicatedEpsBearerContextRequest

variable {msg : ActivateDedicatedEpsBearerContextRequest ν}

open ActivateDedicatedEpsBearerContextRequest

theorem encodeOptional_none (h : ∀ e : OptionalElement, msg.presencemask &&& e.present ≠ e.present)
    (others : OptionalElements ν) (len : ℕ) (es : List OptionalElement) (mem : ℕ → UInt8) (encoded : ℕ) :
    encodeOptional others msg len es mem encoded = .ok (mem, encoded) := by
  induction es with
  | nil => rfl
  | cons e es ih => rw [encodeOptional, if_neg (h e), ih]

theorem encodeRequest_writes (others : OptionalElements ν)
    (hop : hasFilters msg.tft.tftoperationcode = true)
    (hothers : ∀ e : OptionalElement, msg.presencemask &&& e.present ≠ e.present) (mem : ℕ → UInt8)
    (hlen : len < 4294967296) (hroom : msg.octets.length ≤ len) :
    Writes mem 0 msg.octets (encodeActivateDedicatedEpsBearerContextRequest others msg mem len) := by
  let first := msg.linkedepsbeareridentity &&& 0x0f
  have hsize : msg.mandatory.length = 1 + msg.epsqos.octets.length + msg.tft.octets.length := by
    simp only [mandatory, List.length_cons, List.length_append]
    omega
  have hle : msg.mandatory.length ≤ msg.octets.length := by
    simp only [ActivateDedicatedEpsBearerContextRequest.octets, List.length_append]
    omega
  have hmin : ¬len < ACTIVATE_DEDICATED_EPS_BEARER_CONTEXT_REQUEST_MINIMUM_LENGTH := by
    simp only [ACTIVATE_DEDICATED_EPS_BEARER_CONTEXT_REQUEST_MINIMUM_LENGTH,
      EPS_QUALITY_OF_SERVICE_MINIMUM_LENGTH, TRAFFIC_FLOW_TEMPLATE_MINIMUM_LENGTH,
      EpsQualityOfService.octets, EpsQualityOfService.contents, TrafficFlowTemplate.octets,
      TrafficFlowTemplate.contents, List.length_cons] at hsize ⊢
    omega
  have hleft : ∀ n ≤ len, uint32Sub len n = len - n := fun n hn ↦ uint32Sub_of_le hn hlen
  obtain ⟨mem₁, hqos, hfilled₁⟩ := encodeEpsQualityOfService_writes msg.epsqos
    (update mem 0 first) 1 (uint32Sub len 1) (by rw [hleft 1 (by omega)]; omega)
  obtain ⟨mem₂, htft, hfilled₂⟩ := encodeTrafficFlowTemplate_writes hop mem₁
    (1 + msg.epsqos.octets.length) (uint32Sub len (1 + msg.epsqos.octets.length))
    (by rw [hleft _ (by omega)]; omega) (by rw [hleft _ (by omega)]; omega)
  have hmandatory : Filled mem 0 msg.mandatory mem₂ := by
    refine (Filled.singleton mem 0 first).append (hfilled₁.append ?_)
    exact hfilled₂
  have hnone := encodeOptional_none hothers others len OptionalElement.all mem₂
    (1 + msg.epsqos.octets.length + msg.tft.octets.length)
  simp only [encodeActivateDedicatedEpsBearerContextRequest, if_neg hmin]
  rw [hqos, ok_bind]
  dsimp only
  rw [htft, ok_bind]
  dsimp only
  rw [hnone, ok_bind]
  dsimp only
  cases hpco : msg.pcoPresent with
  | false =>
    have hmask := of_decide_eq_false hpco
    have hoctets : msg.octets = msg.mandatory := by
      simp [ActivateDedicatedEpsBearerContextRequest.octets, hpco]
    rw [if_neg hmask, hoctets]
    exact ⟨mem₂, by rw [hsize]; rfl, hmandatory⟩
  | true =>
    have hmask := of_decide_eq_true hpco
    have hoctets : msg.octets = msg.mandatory ++ msg.protocolconfigurationoptions.octets := by
      simp [ActivateDedicatedEpsBearerContextRequest.octets, hpco]
    rw [hoctets, List.length_append] at hroom
    obtain ⟨mem₃, hok, hfilled₃⟩ := encodeProtocolConfigurationOptions_writes
      msg.protocolconfigurationoptions mem₂ (1 + msg.epsqos.octets.length + msg.tft.octets.length)
      (uint32Sub len (1 + msg.epsqos.octets.length + msg.tft.octets.length))
      (by rw [hleft _ (by omega)]; omega) (by rw [hleft _ (by omega)]; omega)
    rw [if_pos hmask, hok, ok_bind, hoctets]
    refine ⟨mem₃, ?_, hmandatory.append ?_⟩
    · rw [List.length_append, hsize]
      rfl
    · rw [hsize, Nat.zero_add]
      exact hfilled₃

end Request

end EdgeSlice.Nas
