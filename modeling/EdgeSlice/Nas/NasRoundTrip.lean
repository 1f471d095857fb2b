import EdgeSlice.Nas.NasExchange

/-! When a UE and an MME understand the messages of each other. -/

namespace EdgeSlice.Nas

variable {nasStream : NasStream} {builds : Builds} {security : EmmSecurityContext}
  {sent held lost : SecuDirection → ℕ} {d : SecuDirection} {t : Transmission}

namespace Parties

theorem showsCount_sender : ShowsCount security d (sent d) ((after security sent held).sender d) := by
  cases d <;> exact ⟨rfl, rfl, rfl, rfl, rfl⟩

variable (builds security) in
/-- The receiver's context with the sequence number of a message that is less than a cycle ahead. -/
theorem showsCount_advance (hle : held d ≤ sent d) (hlt : sent d < held d + 256) :
    ShowsCount security d (sent d) (advanceCount (builds.receiver d) (Count.ofNat (sent d)).seqNum
      ((after security sent held).receiver d)) := by
  have hadvance := Count.advance_ofNat hle hlt
  cases d with
  | uplink => exact ⟨rfl, rfl, rfl, rfl, hadvance⟩
  | downlink => exact ⟨rfl, rfl, rfl, rfl, hadvance⟩

theorem setSender_after :
    (after security sent held).setSender d (((after security sent held).sender d).setCount d
      (Count.ofNat (sent d)).increment) =
      after security (Function.update sent d (sent d + 1)) held := by
  cases d <;> rw [Count.increment_ofNat] <;> rfl

theorem setReceiver_after (hle : held d ≤ sent d) (hlt : sent d < held d + 256) :
    (after security (Function.update sent d (sent d + 1)) held).setReceiver d
      (advanceCount (builds.receiver d) (Count.ofNat (sent d)).seqNum
        ((after security sent held).receiver d)) =
      after security (Function.update sent d (sent d + 1)) (Function.update held d (sent d)) := by
  have hadvance := Count.advance_ofNat hle hlt
  cases d with
  | uplink =>
    simp [after, setReceiver, advanceCount, receiver, Builds.receiver, Build.receives,
      EmmSecurityContext.setCount, EmmSecurityContext.count, hadvance]
  | downlink =>
    simp [after, setReceiver, advanceCount, receiver, Builds.receiver, Build.receives,
      EmmSecurityContext.setCount, EmmSecurityContext.count, hadvance]

theorem receiver_setSender {parties : Parties} {s : EmmSecurityContext} :
    (parties.setSender d s).receiver d = parties.receiver d := by
  cases d <;> rfl

variable (halgorithm : security.encryption = NAS_SECURITY_ALGORITHMS_EEA0 ∨
  security.encryption = NAS_SECURITY_ALGORITHMS_EEA1 ∨
  security.encryption = NAS_SECURITY_ALGORITHMS_EEA2)

include halgorithm

variable (nasStream builds) in
/-- One message: the counts of both parties go on alike, whatever the receiver makes of it. -/
theorem transmit_after (hle : held t.direction ≤ sent t.direction)
    (hlt : t.lost = false → sent t.direction < held t.direction + 256) :
    ∃ x, transmit nasStream builds (after security sent held) t = some (x,
        after security (Function.update sent t.direction (sent t.direction + 1))
          (if t.lost then held else Function.update held t.direction (sent t.direction))) ∧
      x.transmission = t ∧ x.count = (Count.ofNat (sent t.direction)).value ∧
      (x.Exact ↔ (t.lost = false → Suits nasStream builds security (sent t.direction) t)) := by
  have hs : ShowsCount security t.direction (sent t.direction)
      ((after security sent held).sender t.direction) := showsCount_sender
  have hsender : ((after security sent held).sender t.direction).count t.direction =
      Count.ofNat (sent t.direction) := hs.count
  have hoctets : ∀ mac ciphered rest, ciphered.length = t.plain.length →
      (octets mac (Count.ofNat (sent t.direction)).seqNum ciphered ++ rest).take
        (6 + (t.plain.length : ℤ)).toNat =
        octets mac (Count.ofNat (sent t.direction)).seqNum ciphered := by
    intro mac ciphered rest hlen
    apply List.take_left'
    rw [octets_length, hlen]
    omega
  unfold transmit
  simp only [hsender, NAS_MESSAGE_SECURITY_HEADER_SIZE,
    nasMessageEncrypt_eq (hs.encryption ▸ halgorithm) t.nonempty, Option.bind_some, Builds.sends_sender,
    setSender_after, receiver_setSender, hoctets _ _ _ (EmmSecurityContext.cipher_length t.plain)]
  cases hlost : t.lost with
  | true =>
    exact ⟨_, rfl, rfl, rfl, iff_of_true (Exchanged.exact_lost _ _) fun h ↦ Bool.noConfusion h⟩
  | false =>
    have hr := showsCount_advance builds security hle (hlt hlost)
    simp only [Bool.false_eq_true, if_false, nasMessageDecrypt_eq, Builds.receives_receiver]
    by_cases hcode : security.integrity = NAS_SECURITY_ALGORITHMS_EIA0 →
        t.direction = .uplink → builds.ueBuiltIn = builds.mmeBuiltIn
    · rw [if_pos ((hs.accepts_iff hr).mpr hcode)]
      simp only [Option.bind_some, Option.map_some, setReceiver_after hle (hlt hlost), hr.count]
      refine ⟨_, rfl, rfl, rfl, ?_⟩
      have hresult : (((advanceCount (builds.receiver t.direction)
          (Count.ofNat (sent t.direction)).seqNum
          ((after security sent held).receiver t.direction)).decipher nasStream t.direction
          (((after security sent held).sender t.direction).cipher nasStream t.direction t.plain) ++
            [])).take t.plain.length = t.plain ↔
          (security.encryption = NAS_SECURITY_ALGORITHMS_EEA2 →
            StreamsAgree nasStream security t.direction (sent t.direction) t.plain.length) := by
        rw [List.append_nil, List.take_of_length_le (by simp)]
        exact hs.decipher_cipher_iff hr halgorithm
      rw [Exchanged.exact_received]
      simp only [EmmSecurityContext.cipher_length, List.drop_nil, Int.toNat_natCast, hresult,
        true_and, true_imp_iff, Suits]
      exact (and_iff_left hcode).symm
    · rw [if_neg (mt (hs.accepts_iff hr).mp hcode)]
      simp only [Option.bind_some, Option.map_some, setReceiver_after hle (hlt hlost), hr.count]
      refine ⟨_, rfl, rfl, rfl, iff_of_false ?_ fun h ↦ hcode (h trivial).2⟩
      rw [Exchanged.exact_received]
      have hneg : TLV_DECODE_MAC_MISMATCH ≠ t.plain.length := by
        rw [TLV_DECODE_MAC_MISMATCH]
        omega
      exact fun h ↦ hneg h.2.1

variable (nasStream builds lost) in
/-- The run: after `lost` messages in a row of each direction that did not arrive. -/
theorem exchange_after {channel : List Transmission}
    (hwindow : ∀ d, held d ≤ sent d ∧ sent d ≤ held d + lost d + 1)
    (hloss : ∀ d, ¬List.replicate 255 true <:+: List.replicate (lost d) true ++
      fates Transmission.direction Transmission.lost d channel) :
    ∃ exchanged, exchange nasStream builds (after security sent held) channel = some exchanged ∧
      exchanged.map (fun x ↦ (x.transmission, x.count)) =
        (numbered Transmission.direction sent channel).map
          (fun p ↦ (p.2, (Count.ofNat p.1).value)) ∧
      ((∀ x ∈ exchanged, x.Exact) ↔ ∀ p ∈ numbered Transmission.direction sent channel,
        p.2.lost = false → Suits nasStream builds security p.1 p.2) := by
  induction channel generalizing sent held lost with
  | nil => exact ⟨[], rfl, rfl, iff_of_true nofun nofun⟩
  | cons t channel ih =>
    obtain ⟨hle, hahead⟩ := hwindow t.direction
    have hself := hloss t.direction
    rw [fates_cons_self] at hself
    have hlt : t.lost = false → sent t.direction < held t.direction + 256 := fun _ ↦ by
      have hfew := lt_of_not_infix hself
      omega
    obtain ⟨x, htransmit, ht, hcount, hexact⟩ :=
      transmit_after nasStream builds halgorithm hle hlt
    have hwindow' : ∀ d,
        (if t.lost then held else Function.update held t.direction (sent t.direction)) d ≤
          Function.update sent t.direction (sent t.direction + 1) d ∧
        Function.update sent t.direction (sent t.direction + 1) d ≤
          (if t.lost then held else Function.update held t.direction (sent t.direction)) d +
            Function.update lost t.direction (if t.lost then lost t.direction + 1 else 0) d + 1 := by
      intro d
      by_cases hd : d = t.direction
      · subst hd
        cases t.lost with
        | true =>
          simp
          omega
        | false => simp
      · cases t.lost <;> simp [Function.update_of_ne hd, hwindow d]
    have hloss' : ∀ d, ¬List.replicate 255 true <:+: List.replicate
        (Function.update lost t.direction (if t.lost then lost t.direction + 1 else 0) d) true ++
          fates Transmission.direction Transmission.lost d channel := by
      intro d
      by_cases hd : d = t.direction
      · subst hd
        rw [Function.update_self]
        cases hlost : t.lost with
        | true => exact not_infix_cons (hlost ▸ hself)
        | false => exact not_infix_drop (hlost ▸ hself)
      · rw [Function.update_of_ne hd]
        have hother := hloss d
        rwa [fates_cons_of_ne _ (Ne.symm hd)] at hother
    obtain ⟨exchanged, hexchange, hmap, hiff⟩ := ih _ hwindow' hloss'
    refine ⟨x :: exchanged, ?_, ?_, ?_⟩
    · simp only [exchange, htransmit, Option.bind_some, hexchange, Option.map_some]
    · rw [numbered, List.map_cons, List.map_cons, hmap, ht, hcount]
    · rw [numbered, List.forall_mem_cons, List.forall_mem_cons, hexact, hiff]

end Parties

theorem map_filter_direction {exchanged : List Exchanged} {numbers : List (ℕ × Transmission)}
    (hmap : exchanged.map (fun x ↦ (x.transmission, x.count)) =
      numbers.map (fun p ↦ (p.2, (Count.ofNat p.1).value))) (d : SecuDirection) :
    (exchanged.filter fun x ↦ x.transmission.direction = d).map (·.count) =
      (numbers.filter fun p ↦ p.2.direction = d).map fun p ↦ (Count.ofNat p.1).value := by
  have hfilter := congrArg
    (fun pairs ↦ (List.filter (fun p ↦ decide (p.1.direction = d)) pairs).map Prod.snd) hmap
  simpa only [List.filter_map, List.map_map, Function.comp_def] using hfilter

theorem countsDiffer_of_numbered {exchanged : List Exchanged} {channel : List Transmission}
    (hmap : exchanged.map (fun x ↦ (x.transmission, x.count)) =
      (numbered Transmission.direction sent channel).map
        (fun p ↦ (p.2, (Count.ofNat p.1).value))) : CountsDiffer exchanged := by
  intro d hlength
  have hcounts := map_filter_direction hmap d
  have hmany : (channel.filter fun t ↦ t.direction = d).length ≤ 2 ^ 24 := by
    have hlengths := congrArg List.length hcounts
    rw [List.length_map, List.length_map] at hlengths
    rwa [← numbered_filter_length Transmission.direction sent, ← hlengths]
  rw [hcounts]
  apply List.Nodup.of_map UInt32.toNat
  rw [List.map_map]
  have hvalues : UInt32.toNat ∘ (fun p : ℕ × Transmission ↦ (Count.ofNat p.1).value) =
      fun p ↦ p.1 % 2 ^ 24 := funext fun p ↦ Count.value_ofNat p.1
  rw [hvalues]
  exact numbered_mod_nodup hmany

/-- A UE and an MME understand each other if and only if, for the messages that arrive, EEA2 is not in
use or its key stream is that of EEA1, and towards the MME the builds agree on the null code. -/
theorem understood_iff
    (halgorithm : security.encryption = NAS_SECURITY_ALGORITHMS_EEA0 ∨
      security.encryption = NAS_SECURITY_ALGORITHMS_EEA1 ∨
      security.encryption = NAS_SECURITY_ALGORITHMS_EEA2) {channel : List Transmission}
    (hloss : ∀ d, ¬List.replicate 255 true <:+:
      fates Transmission.direction Transmission.lost d channel) :
    Understood nasStream builds security channel ↔
      ∀ p ∈ numbered Transmission.direction (fun d ↦ (security.count d).number) channel,
        p.2.lost = false → Suits nasStream builds security p.1 p.2 := by
  have hstart : Parties.mk security security = Parties.after security
      (fun d ↦ (security.count d).number) fun d ↦ (security.count d).number := by
    simp only [Parties.after, Count.ofNat_number]
    rfl
  obtain ⟨exchanged, hexchange, hmap, hiff⟩ := Parties.exchange_after nasStream builds (fun _ ↦ 0)
    halgorithm (fun d ↦ ⟨le_rfl, Nat.le_add_right _ 1⟩) hloss
  rw [← hiff, Understood, hstart]
  constructor
  · rintro ⟨exchanged', hexchange', hexact, -⟩
    rw [hexchange] at hexchange'
    cases hexchange'
    exact hexact
  · exact fun hexact ↦ ⟨exchanged, hexchange, hexact, countsDiffer_of_numbered hmap⟩

/-- Key streams of two octets each, and codes that show the COUNT and the length. -/
def shortStreams : NasStream where
  eea1 _ i := if i % 2 = 0 then 0x5A else 0xC3
  eea2 _ i := if i % 2 = 0 then 0x96 else 0x0F
  eia1 c bytes := c.count + UInt32.ofNat bytes.length
  eia2 c bytes := c.count + UInt32.ofNat bytes.length + 1

def eea1Context : EmmSecurityContext where
  knasEnc := List.replicate 16 1
  knasInt := List.replicate 16 2
  dlCount := ⟨0, 255⟩
  ulCount := ⟨0, 255⟩
  encryption := NAS_SECURITY_ALGORITHMS_EEA1
  integrity := NAS_SECURITY_ALGORITHMS_EIA1

/-- A detach request whose predecessor is lost, with a wrap of the sequence number in between. -/
def detachRequests : List Transmission :=
  [⟨.uplink, [0x07, 0x45], by decide, 0, true⟩, ⟨.uplink, [0x07, 0x45, 0x79], by decide, 0, false⟩]

theorem detachRequests_understood :
    Understood shortStreams ⟨true, true⟩ eea1Context detachRequests := by
  refine (understood_iff (.inr (.inl rfl)) fun d hinfix ↦ ?_).mpr fun p _ _ ↦
    ⟨fun h ↦ ?_, fun h ↦ ?_⟩
  · have hlength := hinfix.length_le
    rw [List.length_replicate] at hlength
    cases d <;> exact absurd hlength (by decide)
  · exact absurd h (by decide)
  · exact absurd h (by decide)

/-- With EEA2 the message is accepted, and the receiver reads other octets. -/
theorem not_understood_eea2 :
    ¬Understood shortStreams ⟨true, true⟩
      { eea1Context with encryption := NAS_SECURITY_ALGORITHMS_EEA2 } detachRequests := by
  rintro ⟨exchanged, hexchange, hexact, -⟩
  have hrun : (Parties.exchange shortStreams ⟨true, true⟩
      ⟨{ eea1Context with encryption := NAS_SECURITY_ALGORITHMS_EEA2 },
        { eea1Context with encryption := NAS_SECURITY_ALGORITHMS_EEA2 }⟩ detachRequests).map
        (fun exchanged ↦ exchanged.map fun x ↦
          (x.transmission.plain, x.received.map fun r ↦ r.2.outbuf.take r.2.rc.toNat)) =
      some [([0x07, 0x45], none), ([0x07, 0x45, 0x79], some [0xCB, 0x89, 0xB5])] := by
    decide +kernel
  rw [hexchange, Option.map_some, Option.some_inj] at hrun
  have hlast : ([0x07, 0x45, 0x79], some [0xCB, 0x89, 0xB5]) ∈ exchanged.map fun x ↦
      (x.transmission.plain, x.received.map fun r ↦ r.2.outbuf.take r.2.rc.toNat) := by
    rw [hrun]
    exact List.mem_of_mem_getLast? rfl
  obtain ⟨x, hx, hresult⟩ := List.mem_map.mp hlast
  obtain ⟨hplain, hreceived⟩ := Prod.mk.inj hresult
  obtain ⟨⟨count, decrypted⟩, hreceived, houtbuf⟩ := Option.map_eq_some_iff.mp hreceived
  obtain ⟨-, -, hplain'⟩ := hexact x hx count decrypted hreceived
  rw [hplain, houtbuf] at hplain'
  exact absurd hplain' (by decide)

end EdgeSlice.Nas
