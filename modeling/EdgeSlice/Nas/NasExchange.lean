import EdgeSlice.Nas.NasProtected
import EdgeSlice.NumberedStreams

/-! A UE and an MME that exchange ciphered messages over a channel that loses some of them. -/

namespace EdgeSlice.Nas

/-- A plain message, what the code field of its header holds before, and what the channel does. -/
structure Transmission where
  direction : SecuDirection
  plain : List UInt8
  nonempty : plain ≠ []
  code : UInt32
  lost : Bool

/-- Whether NAS is built in at the UE and at the MME. -/
structure Builds where
  ueBuiltIn : Bool
  mmeBuiltIn : Bool

namespace Builds

def sender (builds : Builds) : SecuDirection → Build
  | .uplink => ⟨false, builds.ueBuiltIn⟩
  | .downlink => ⟨true, builds.mmeBuiltIn⟩

def receiver (builds : Builds) : SecuDirection → Build
  | .uplink => ⟨true, builds.mmeBuiltIn⟩
  | .downlink => ⟨false, builds.ueBuiltIn⟩

@[simp] theorem sends_sender (builds : Builds) (d : SecuDirection) : (builds.sender d).sends = d := by
  cases d <;> rfl

@[simp] theorem receives_receiver (builds : Builds) (d : SecuDirection) :
    (builds.receiver d).receives = d := by
  cases d <;> rfl

end Builds

/-- The two security contexts. -/
structure Parties where
  ue : EmmSecurityContext
  mme : EmmSecurityContext

/-- What became of a message: the COUNT at its sender, and unless it was lost the COUNT and the result
at its receiver. -/
structure Exchanged where
  transmission : Transmission
  count : UInt32
  received : Option (UInt32 × Decrypted)

namespace Parties

def sender (parties : Parties) : SecuDirection → EmmSecurityContext
  | .uplink => parties.ue
  | .downlink => parties.mme

def receiver (parties : Parties) : SecuDirection → EmmSecurityContext
  | .uplink => parties.mme
  | .downlink => parties.ue

def setSender (parties : Parties) (d : SecuDirection) (security : EmmSecurityContext) : Parties :=
  match d with
  | .uplink => { parties with ue := security }
  | .downlink => { parties with mme := security }

def setReceiver (parties : Parties) (d : SecuDirection) (security : EmmSecurityContext) : Parties :=
  match d with
  | .uplink => { parties with mme := security }
  | .downlink => { parties with ue := security }

/-- One message is protected and, unless the channel loses it, received. -/
def transmit (nasStream : NasStream) (builds : Builds) (parties : Parties) (t : Transmission) :
    Option (Exchanged × Parties) :=
  let sender := parties.sender t.direction
  let count := sender.count t.direction
  let length := t.plain.length + NAS_MESSAGE_SECURITY_HEADER_SIZE
  (nasMessageEncrypt (builds.sender t.direction) nasStream t.plain (List.replicate length 0)
      (cypheredHeader t.code count.seqNum) length (some sender)).bind fun encrypted ↦
    encrypted.security.bind fun sender ↦
      let parties := parties.setSender t.direction sender
      if t.lost then some (⟨t, count.value, none⟩, parties)
      else
        (nasMessageDecrypt (builds.receiver t.direction) nasStream
            (encrypted.outbuf.take encrypted.rc.toNat) [] ⟨0, 0, 0, 0⟩
            (some (parties.receiver t.direction))).bind fun decrypted ↦
          decrypted.security.map fun receiver ↦
            (⟨t, count.value, some ((receiver.count t.direction).value, decrypted)⟩,
              parties.setReceiver t.direction receiver)

def exchange (nasStream : NasStream) (builds : Builds) :
    Parties → List Transmission → Option (List Exchanged)
  | _, [] => some []
  | parties, t :: ts =>
    (parties.transmit nasStream builds t).bind fun (x, parties) ↦
      (exchange nasStream builds parties ts).map (x :: ·)

/-- After `sent` messages of each direction, where the last one that was received had `held`. -/
def after (security : EmmSecurityContext) (sent held : SecuDirection → ℕ) : Parties where
  ue := { security with ulCount := .ofNat (sent .uplink), dlCount := .ofNat (held .downlink) }
  mme := { security with ulCount := .ofNat (held .uplink), dlCount := .ofNat (sent .downlink) }

end Parties

/-- The message is accepted with the COUNT of its sender, and the result is the plain message. -/
def Exchanged.Exact (x : Exchanged) : Prop :=
  ∀ count decrypted, x.received = some (count, decrypted) →
    count = x.count ∧ decrypted.rc = x.transmission.plain.length ∧
      decrypted.outbuf.take decrypted.rc.toNat = x.transmission.plain

theorem Exchanged.exact_lost (t : Transmission) (count : UInt32) :
    (⟨t, count, none⟩ : Exchanged).Exact :=
  nofun

theorem Exchanged.exact_received {t : Transmission} {count count' : UInt32} {decrypted : Decrypted} :
    (⟨t, count, some (count', decrypted)⟩ : Exchanged).Exact ↔
      count' = count ∧ decrypted.rc = t.plain.length ∧
        decrypted.outbuf.take decrypted.rc.toNat = t.plain := by
  constructor
  · exact fun h ↦ h count' decrypted rfl
  · intro h _ _ hreceived
    cases hreceived
    exact h

/-- No two of the first 2^24 messages of a direction have the same COUNT. -/
def CountsDiffer (exchanged : List Exchanged) : Prop :=
  ∀ d, (exchanged.filter fun x ↦ x.transmission.direction = d).length ≤ 2 ^ 24 →
    ((exchanged.filter fun x ↦ x.transmission.direction = d).map (·.count)).Nodup

/-- Two parties that start from one security context understand each other. -/
def Understood (nasStream : NasStream) (builds : Builds) (security : EmmSecurityContext)
    (channel : List Transmission) : Prop :=
  ∃ exchanged, Parties.exchange nasStream builds ⟨security, security⟩ channel = some exchanged ∧
    (∀ x ∈ exchanged, x.Exact) ∧ CountsDiffer exchanged

/-- The two key streams are the same for the first octets of message `n`. -/
def StreamsAgree (nasStream : NasStream) (security : EmmSecurityContext) (d : SecuDirection)
    (n length : ℕ) : Prop :=
  ∀ i < length, nasStream.eea1 ⟨security.knasEnc, (Count.ofNat n).value, 0, d⟩ i =
    nasStream.eea2 ⟨security.knasEnc, (Count.ofNat n).value, 0, d⟩ i

/-- What the message with number `n` needs: the receiver deciphers EEA2 with the key stream of EEA1,
and the null algorithm has a code that depends on the build, which only the MME checks. -/
def Suits (nasStream : NasStream) (builds : Builds) (security : EmmSecurityContext) (n : ℕ)
    (t : Transmission) : Prop :=
  (security.encryption = NAS_SECURITY_ALGORITHMS_EEA2 →
    StreamsAgree nasStream security t.direction n t.plain.length) ∧
  (security.integrity = NAS_SECURITY_ALGORITHMS_EIA0 → t.direction = .uplink →
    builds.ueBuiltIn = builds.mmeBuiltIn)

section Step

variable {nasStream : NasStream} {builds : Builds} {security s s' : EmmSecurityContext}
  {d : SecuDirection} {n : ℕ} {plain : List UInt8}

/-- A context as `security`, with the count of one direction. -/
structure ShowsCount (security : EmmSecurityContext) (d : SecuDirection) (n : ℕ)
    (s : EmmSecurityContext) : Prop where
  knasEnc : s.knasEnc = security.knasEnc
  knasInt : s.knasInt = security.knasInt
  encryption : s.encryption = security.encryption
  integrity : s.integrity = security.integrity
  count : s.count d = .ofNat n

theorem ShowsCount.decipher_cipher_iff (h : ShowsCount security d n s)
    (h' : ShowsCount security d n s')
    (halgorithm : security.encryption = NAS_SECURITY_ALGORITHMS_EEA0 ∨
      security.encryption = NAS_SECURITY_ALGORITHMS_EEA1 ∨
      security.encryption = NAS_SECURITY_ALGORITHMS_EEA2) :
    s'.decipher nasStream d (s.cipher nasStream d plain) = plain ↔
      (security.encryption = NAS_SECURITY_ALGORITHMS_EEA2 →
        StreamsAgree nasStream security d n plain.length) := by
  simp only [StreamsAgree, EmmSecurityContext.decipher, EmmSecurityContext.cipher,
    EmmSecurityContext.streamCipher, h.knasEnc, h.encryption, h.count, h'.knasEnc, h'.encryption,
    h'.count]
  rcases halgorithm with halg | halg | halg
  · simp [halg, NAS_SECURITY_ALGORITHMS_EEA0, NAS_SECURITY_ALGORITHMS_EEA1,
      NAS_SECURITY_ALGORITHMS_EEA2]
  · simp [halg, NAS_SECURITY_ALGORITHMS_EEA1, NAS_SECURITY_ALGORITHMS_EEA2]
  · simp [halg, NAS_SECURITY_ALGORITHMS_EEA1, NAS_SECURITY_ALGORITHMS_EEA2, xorStream_inverse_iff]

theorem noMac_eq_iff {build build' : Build} :
    build.noMac = build'.noMac ↔ build.builtIn = build'.builtIn := by
  unfold Build.noMac
  cases build.builtIn <;> cases build'.builtIn <;> decide

theorem ShowsCount.accepts_iff {bytes : List UInt8} (h : ShowsCount security d n s)
    (h' : ShowsCount security d n s') :
    (_nasMessageGetMac (builds.receiver d) nasStream bytes d (some s') =
        _nasMessageGetMac (builds.sender d) nasStream bytes d (some s) ∨
      (builds.receiver d).nasMme = false ∧ s'.integrity = NAS_SECURITY_ALGORITHMS_EIA0) ↔
      (security.integrity = NAS_SECURITY_ALGORITHMS_EIA0 → d = .uplink →
        builds.ueBuiltIn = builds.mmeBuiltIn) := by
  simp only [_nasMessageGetMac, EmmSecurityContext.streamCipher, h.knasInt, h.integrity, h.count,
    h'.knasInt, h'.integrity, h'.count]
  by_cases hint : security.integrity = NAS_SECURITY_ALGORITHMS_EIA0
  · cases d with
    | uplink =>
      simp [hint, Builds.receiver, Builds.sender, NAS_SECURITY_ALGORITHMS_EIA0,
        NAS_SECURITY_ALGORITHMS_EIA1, NAS_SECURITY_ALGORITHMS_EIA2, noMac_eq_iff, eq_comm]
    | downlink => simp [hint, Builds.receiver]
  · simp [hint]

end Step

end EdgeSlice.Nas
