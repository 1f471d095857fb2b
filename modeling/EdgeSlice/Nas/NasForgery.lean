import EdgeSlice.Nas.NasProtected

/-! What messages that fail the integrity check leave behind at their receiver. -/

namespace EdgeSlice.Nas

variable {build : Build} {nasStream : NasStream} {μ : Type*} {plainDecode : PlainDecode μ}

/-- The function that a message is given to. -/
inductive Entry
  | decrypt
  | decode
  deriving DecidableEq

/-- What a receiver keeps: the output of the two functions, and the security context. -/
structure Receiver (μ : Type*) where
  outbuf : List UInt8
  header : NasMessageSecurityHeader
  msg : NasMessage μ
  security : EmmSecurityContext

namespace Receiver

/-- The return code and the receiver after a message. -/
def receive (build : Build) (nasStream : NasStream) (plainDecode : PlainDecode μ) (r : Receiver μ) :
    Entry → List UInt8 → Option (ℤ × Receiver μ)
  | .decrypt, octets =>
    (nasMessageDecrypt build nasStream octets r.outbuf r.header (some r.security)).bind fun result ↦
      result.security.map fun security ↦
        (result.rc, { r with outbuf := result.outbuf, header := result.header, security := security })
  | .decode, octets =>
    (nasMessageDecode build nasStream plainDecode octets r.msg (some r.security)).bind fun result ↦
      result.security.map fun security ↦
        (result.rc, { r with msg := result.msg, security := security })

/-- The plain messages and the security context, without the headers. -/
def content (r : Receiver μ) : List UInt8 × μ × EmmSecurityContext :=
  (r.outbuf, r.msg.plain, r.security)

end Receiver

/-- The header of a message that is security protected. -/
def headerOf (octets : List UInt8) : NasMessageSecurityHeader :=
  (_nasMessageHeaderDecode octets ⟨0, 0, 0, 0⟩).2

def Protected (octets : List UInt8) : Prop := (_nasMessageHeaderDecode octets ⟨0, 0, 0, 0⟩).1 = 6

/-- The code of the message is not the one that the receiver computes with its estimate of the
COUNT. -/
def MacFails (build : Build) (nasStream : NasStream) (security : EmmSecurityContext)
    (octets : List UInt8) : Prop :=
  Protected octets ∧
    _nasMessageGetMac build nasStream (octets.drop 5) build.receives
      (some (advanceCount build (headerOf octets).sequenceNumber security)) ≠
        (headerOf octets).messageAuthenticationCode

/-- Messages that fail the check one after the other. -/
def AllFail (build : Build) (nasStream : NasStream) (plainDecode : PlainDecode μ) :
    Receiver μ → List (Entry × List UInt8) → Prop
  | _, [] => True
  | r, (entry, octets) :: messages =>
    MacFails build nasStream r.security octets ∧ ∀ rc r',
      r.receive build nasStream plainDecode entry octets = some (rc, r') →
        AllFail build nasStream plainDecode r' messages

/-- Each message is refused with the code of a MAC mismatch and nothing changes. Whatever comes next
is received as if none of them had come. -/
def RefusedAtomically (build : Build) (nasStream : NasStream) (plainDecode : PlainDecode μ)
    (r : Receiver μ) : Receiver μ → List (Entry × List UInt8) → Prop
  | r', [] => ∀ entry octets,
    (r'.receive build nasStream plainDecode entry octets).map (fun result ↦
        (result.1, result.2.content)) =
      (r.receive build nasStream plainDecode entry octets).map (fun result ↦
        (result.1, result.2.content))
  | r', (entry, octets) :: messages =>
    ∃ r'', r'.receive build nasStream plainDecode entry octets = some (TLV_DECODE_MAC_MISMATCH, r'') ∧
      r''.content = r'.content ∧ RefusedAtomically build nasStream plainDecode r r'' messages

/-- Only a first octet, or a whole header: what stood in the header before is seen in neither. -/
theorem headerDecode_cases (octets : List UInt8) (header : NasMessageSecurityHeader) :
    Protected octets ∧ _nasMessageHeaderDecode octets header = (6, headerOf octets) ∨
      ¬Protected octets ∧ ∃ size, size ≤ 1 ∧ ∀ header : NasMessageSecurityHeader,
        _nasMessageHeaderDecode octets header =
          (size, { header with
            protocolDiscriminator := octets.getD 0 0 &&& 0x0F
            securityHeaderType := octets.getD 0 0 >>> 4 }) := by
  unfold Protected headerOf _nasMessageHeaderDecode
  generalize octets.getD 0 0 = octet
  by_cases hemm : octet &&& 0x0F = EPS_MOBILITY_MANAGEMENT_MESSAGE
  · by_cases htype : octet >>> 4 = SECURITY_HEADER_TYPE_NOT_PROTECTED
    · exact .inr ⟨by simp [hemm, htype], 1, le_rfl, fun _ ↦ by simp [hemm, htype]⟩
    · by_cases hlength : octets.length < NAS_MESSAGE_SECURITY_HEADER_SIZE
      · exact .inr ⟨by simp [hemm, htype, hlength], -1, by decide, fun _ ↦ by
          simp [hemm, htype, hlength]⟩
      · exact .inl ⟨by simp [hemm, htype, hlength], by simp [hemm, htype, hlength]⟩
  · exact .inr ⟨by simp [hemm], 1, le_rfl, fun _ ↦ by simp [hemm]⟩

theorem headerDecode_protected {octets : List UInt8} (h : Protected octets)
    (header : NasMessageSecurityHeader) :
    _nasMessageHeaderDecode octets header = (6, headerOf octets) := by
  rcases headerDecode_cases octets header with ⟨-, heq⟩ | ⟨hnot, -⟩
  · exact heq
  · exact absurd h hnot

theorem nasMessageDecrypt_header (build : Build) (nasStream : NasStream) (inbuf outbuf : List UInt8)
    (header header' : NasMessageSecurityHeader) (security : Option EmmSecurityContext) :
    (nasMessageDecrypt build nasStream inbuf outbuf header security).map (fun result ↦
        (result.rc, result.outbuf, result.security)) =
      (nasMessageDecrypt build nasStream inbuf outbuf header' security).map fun result ↦
        (result.rc, result.outbuf, result.security) := by
  unfold nasMessageDecrypt
  rcases headerDecode_cases inbuf header with ⟨hprotected, -⟩ | ⟨-, size, hsize, hheader⟩
  · rw [headerDecode_protected hprotected header, headerDecode_protected hprotected header']
  · simp only [hheader, hsize.not_gt, if_false]
    split <;> rfl

theorem nasMessageDecode_header (build : Build) (nasStream : NasStream) (plainDecode : PlainDecode μ)
    (buffer : List UInt8) (plain : μ) (header header' : NasMessageSecurityHeader)
    (security : Option EmmSecurityContext) :
    (nasMessageDecode build nasStream plainDecode buffer ⟨header, plain⟩ security).map (fun result ↦
        (result.rc, result.msg.plain, result.security)) =
      (nasMessageDecode build nasStream plainDecode buffer ⟨header', plain⟩ security).map fun result ↦
        (result.rc, result.msg.plain, result.security) := by
  unfold nasMessageDecode
  rcases headerDecode_cases buffer header with ⟨hprotected, -⟩ | ⟨-, size, hsize, hheader⟩
  · simp only [headerDecode_protected hprotected]
  · simp only [hheader, hsize.not_gt, if_false, _nasMessagePlainDecode]
    split <;> rfl

theorem Count.advance_eq_self_iff {c : Count} {sequenceNumber : UInt8} :
    c.advance sequenceNumber = c ↔ sequenceNumber = c.seqNum := by
  unfold Count.advance
  constructor
  · intro h
    have hseq := congrArg Count.seqNum h
    split at hseq
    · exact hseq
    · exact hseq
  · rintro rfl
    rw [if_neg (UInt8.lt_irrefl _)]

theorem advanceCount_eq_self_iff {security : EmmSecurityContext} {sequenceNumber : UInt8} :
    advanceCount build sequenceNumber security = security ↔
      sequenceNumber = (security.count build.receives).seqNum := by
  rw [← Count.advance_eq_self_iff]
  unfold advanceCount
  cases build.receives with
  | uplink =>
    constructor
    · exact fun h ↦ congrArg EmmSecurityContext.ulCount h
    · exact fun h ↦ congrArg (fun c ↦ { security with ulCount := c }) h
  | downlink =>
    constructor
    · exact fun h ↦ congrArg EmmSecurityContext.dlCount h
    · exact fun h ↦ congrArg (fun c ↦ { security with dlCount := c }) h

namespace Receiver

variable {r r' : Receiver μ} {entry : Entry} {octets : List UInt8}

variable (plainDecode entry) in
/-- The step of a message that fails the check: the sequence number it carries is kept. -/
theorem receive_macFails (hint : r.security.integrity = NAS_SECURITY_ALGORITHMS_EIA1 ∨
      r.security.integrity = NAS_SECURITY_ALGORITHMS_EIA2)
    (h : MacFails build nasStream r.security octets) :
    ∃ r', r.receive build nasStream plainDecode entry octets = some (TLV_DECODE_MAC_MISMATCH, r') ∧
      r'.content = (r.outbuf, r.msg.plain,
        advanceCount build (headerOf octets).sequenceNumber r.security) := by
  obtain ⟨hprotected, hmac⟩ := h
  have hheader := headerDecode_protected hprotected
  have hnull : (advanceCount build (headerOf octets).sequenceNumber r.security).integrity ≠
      NAS_SECURITY_ALGORITHMS_EIA0 := by
    have hkeep : (advanceCount build (headerOf octets).sequenceNumber r.security).integrity =
        r.security.integrity := by
      unfold advanceCount
      cases build.receives <;> rfl
    rw [hkeep]
    rcases hint with hint | hint
    · rw [hint]
      decide
    · rw [hint]
      decide
  cases entry with
  | decrypt =>
    unfold receive nasMessageDecrypt
    simp [hheader, hmac, hnull, content]
  | decode =>
    unfold receive nasMessageDecode
    simp [hheader, hmac, content]

/-- The headers that a receiver has kept are not seen in what it does next. -/
theorem receive_content (h : r'.content = r.content) :
    (r'.receive build nasStream plainDecode entry octets).map (fun result ↦
        (result.1, result.2.content)) =
      (r.receive build nasStream plainDecode entry octets).map fun result ↦
        (result.1, result.2.content) := by
  obtain ⟨outbuf, header, ⟨header₁, plain⟩, security⟩ := r
  obtain ⟨outbuf', header', ⟨header₁', plain'⟩, security'⟩ := r'
  simp only [content, Prod.mk.injEq] at h
  obtain ⟨rfl, rfl, rfl⟩ := h
  cases entry with
  | decrypt =>
    have hsame := congrArg (fun results ↦ Option.bind results fun result ↦
      Option.map (fun security ↦ (result.1, result.2.1, plain', security)) result.2.2)
      (nasMessageDecrypt_header build nasStream octets outbuf' header' header (some security'))
    simpa only [receive, content, Option.map_bind, Option.bind_map, Option.map_map,
      Function.comp_def] using hsame
  | decode =>
    have hsame := congrArg (fun results ↦ Option.bind results fun result ↦
      Option.map (fun security ↦ (result.1, outbuf', result.2.1, security)) result.2.2)
      (nasMessageDecode_header build nasStream plainDecode octets plain' header₁' header₁
        (some security'))
    simpa only [receive, content, Option.map_bind, Option.bind_map, Option.map_map,
      Function.comp_def] using hsame

end Receiver

/-- The sequence number of a protected message is its sixth octet. -/
theorem headerOf_sequenceNumber {octets : List UInt8} (h : Protected octets) :
    (headerOf octets).sequenceNumber = octets.getD 5 0 := by
  unfold Protected at h
  unfold headerOf
  revert h
  unfold _nasMessageHeaderDecode
  generalize octets.getD 0 0 = octet
  by_cases hemm : octet &&& 0x0F = EPS_MOBILITY_MANAGEMENT_MESSAGE
  · by_cases htype : octet >>> 4 = SECURITY_HEADER_TYPE_NOT_PROTECTED
    · simp [hemm, htype]
    · by_cases hlength : octets.length < NAS_MESSAGE_SECURITY_HEADER_SIZE
      · simp [hemm, htype, hlength]
      · simp [hemm, htype, hlength]
  · simp [hemm]

/-- Messages that fail the check are refused atomically if and only if each carries the sequence number
that the receiver has already. -/
theorem refusedAtomically_iff {r : Receiver μ} {messages : List (Entry × List UInt8)}
    (hint : r.security.integrity = NAS_SECURITY_ALGORITHMS_EIA1 ∨
      r.security.integrity = NAS_SECURITY_ALGORITHMS_EIA2)
    (hfail : AllFail build nasStream plainDecode r messages) :
    RefusedAtomically build nasStream plainDecode r r messages ↔
      ∀ m ∈ messages, m.2.getD 5 0 = (r.security.count build.receives).seqNum := by
  have hrun : ∀ r', r'.content = r.content → AllFail build nasStream plainDecode r' messages →
      (RefusedAtomically build nasStream plainDecode r r' messages ↔
        ∀ m ∈ messages, m.2.getD 5 0 = (r.security.count build.receives).seqNum) := by
    clear hfail
    induction messages with
    | nil => exact fun r' hsame _ ↦ iff_of_true (fun _ _ ↦ Receiver.receive_content hsame) nofun
    | cons m messages ih =>
      obtain ⟨entry, octets⟩ := m
      intro r' hsame ⟨hmac, hrest⟩
      have hsecurity : r'.security = r.security := congrArg (·.2.2) hsame
      obtain ⟨r'', hreceive, hcontent⟩ := Receiver.receive_macFails plainDecode entry
        (hsecurity ▸ hint) hmac
      have hkeep : r''.content = r'.content ↔
          octets.getD 5 0 = (r.security.count build.receives).seqNum := by
        rw [hcontent, Receiver.content, ← hsecurity, ← headerOf_sequenceNumber hmac.1,
          ← advanceCount_eq_self_iff]
        simp
      rw [List.forall_mem_cons, ← hkeep, RefusedAtomically]
      constructor
      · rintro ⟨r₂, hreceive₂, hsame₂, hatomic⟩
        rw [hreceive] at hreceive₂
        cases hreceive₂
        exact ⟨hsame₂, (ih r'' (hsame₂.trans hsame) (hrest _ r'' hreceive)).mp hatomic⟩
      · rintro ⟨hsame₂, hall⟩
        exact ⟨r'', hreceive, hsame₂,
          (ih r'' (hsame₂.trans hsame) (hrest _ r'' hreceive)).mpr hall⟩
  exact hrun r rfl hfail

/-- Codes that show the COUNT. -/
def countCodes : NasStream where
  eea1 _ _ := 0
  eea2 _ _ := 0
  eia1 c _ := c.count
  eia2 c _ := c.count

/-- An MME that has received the uplink message 5 with EIA2. -/
def atFive : Receiver Unit where
  outbuf := []
  header := ⟨0, 0, 0, 0⟩
  msg := ⟨⟨0, 0, 0, 0⟩, ()⟩
  security := ⟨[], [], ⟨0, 0⟩, ⟨0, 5⟩, NAS_SECURITY_ALGORITHMS_EEA0, NAS_SECURITY_ALGORITHMS_EIA2⟩

def lengthDecode : PlainDecode Unit where
  emm msg buffer := (buffer.length, msg)
  esm msg buffer := (buffer.length, msg)

/-- Forged messages with the sequence number 5. -/
def forgedFive : List (Entry × List UInt8) :=
  [(.decrypt, [0x27, 0, 0, 0, 0, 5, 0x07]), (.decode, [0x27, 0, 0, 1, 0, 5])]

theorem forgedFive_refused :
    RefusedAtomically ⟨true, true⟩ countCodes lengthDecode atFive atFive forgedFive := by
  have hfail : AllFail ⟨true, true⟩ countCodes lengthDecode atFive forgedFive := by
    refine ⟨⟨rfl, by decide⟩, fun rc r h ↦ ⟨?_, fun _ _ _ ↦ trivial⟩⟩
    cases h
    exact ⟨rfl, by decide⟩
  exact (refusedAtomically_iff (.inr rfl) hfail).mpr (by decide)

/-- A forged message with the sequence number 200 changes the context. The genuine message 6, which
would be accepted, is refused after it. -/
theorem forged_two_hundred :
    AllFail ⟨true, true⟩ countCodes lengthDecode atFive
        [(.decrypt, [0x27, 0, 0, 0, 0, 200, 0x07])] ∧
      ¬RefusedAtomically ⟨true, true⟩ countCodes lengthDecode atFive atFive
        [(.decrypt, [0x27, 0, 0, 0, 0, 200, 0x07])] ∧
      ((atFive.receive ⟨true, true⟩ countCodes lengthDecode .decrypt
        [0x27, 0, 0, 0, 6, 6, 0x07, 0x45]).map fun result ↦ result.1) = some 2 ∧
      ((atFive.receive ⟨true, true⟩ countCodes lengthDecode .decrypt
          [0x27, 0, 0, 0, 0, 200, 0x07]).bind fun result ↦
        (result.2.receive ⟨true, true⟩ countCodes lengthDecode .decrypt
          [0x27, 0, 0, 0, 6, 6, 0x07, 0x45]).map fun result ↦ result.1) =
        some TLV_DECODE_MAC_MISMATCH := by
  refine ⟨⟨⟨rfl, by decide⟩, fun _ _ _ ↦ trivial⟩, ?_, by decide, by decide⟩
  rintro ⟨r, hreceive, hcontent, -⟩
  cases hreceive
  have hcount := congrArg (fun content ↦ content.2.2.ulCount) hcontent
  exact absurd hcount (by decide)

end EdgeSlice.Nas
