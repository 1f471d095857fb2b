import EdgeSlice.Nas.AttachAccept
import EdgeSlice.Nas.DedicatedRequest

/-! The octets on which the decoders of information elements keep to the message. -/

namespace EdgeSlice.Nas

open OctetReader Function

variable {α : Type} {buffer rest : List UInt8} {iei : UInt8} {decoded : ℕ}

@[simp] theorem sound_ok {len n : ℕ} {a : α} : Sound len (.ok (n, a)) ↔ n ≤ len := Iff.rfl

@[simp] theorem sound_code {len : ℕ} {c : ℤ} :
    Sound (α := α) len (.error (.code c)) ↔ c ≤ 0 := Iff.rfl

@[simp] theorem not_sound_overread {len : ℕ} : ¬Sound (α := α) len (.error .overread) := id

@[simp] theorem not_sound_overwrite {len : ℕ} : ¬Sound (α := α) len (.error .overwrite) := id

@[simp] theorem not_sound_abort {len : ℕ} : ¬Sound (α := α) len (.error .abort) := id

/-- The rest of the buffer begins at `decoded`. -/
structure At (buffer : List UInt8) (decoded : ℕ) (rest : List UInt8) : Prop where
  drop : buffer.drop decoded = rest
  length : decoded + rest.length = buffer.length

namespace At

theorem start (buffer : List UInt8) : At buffer 0 buffer := ⟨rfl, Nat.zero_add _⟩

theorem tail {b : UInt8} (h : At buffer decoded (b :: rest)) : At buffer (decoded + 1) rest := by
  refine ⟨drop_succ h.drop, ?_⟩
  have := h.length
  rw [List.length_cons] at this
  omega

theorem skip (h : At buffer decoded rest) {n : ℕ} (hn : n ≤ rest.length) :
    At buffer (decoded + n) (rest.drop n) := by
  constructor
  · rw [← List.drop_drop, h.drop]
  · have := h.length
    rw [List.length_drop]
    omega

theorem add {n : ℕ} {after : List UInt8} (h : At buffer decoded rest) (h' : At rest n after) :
    At buffer (decoded + n) after := by
  have hlength := h.length
  have hlength' := h'.length
  refine ⟨?_, by omega⟩
  rw [← List.drop_drop, h.drop, h'.drop]

theorem uint32Sub (h : At buffer decoded rest) (hlen : buffer.length < 4294967296) :
    uint32Sub buffer.length decoded = rest.length := by
  have := h.length
  rw [uint32Sub_of_le (by omega) hlen]
  omega

theorem octet_cons {b : UInt8} (h : At buffer decoded (b :: rest)) : octet buffer decoded = .ok b :=
  octet_of_drop h.drop

theorem octet_nil (h : At buffer decoded []) : octet buffer decoded = .error .overread :=
  octet_of_end h.drop

end At

/-- The identifier of an information element, where it has one. -/
def tag (iei : UInt8) : List UInt8 := if iei > 0 then [iei] else []

/-- An element that is refused for its identifier, or whose length octet is there and, when it is not longer
than what follows, comes before octets with the property. -/
def Element (iei : UInt8) (P : UInt8 → List UInt8 → Prop) (octets : List UInt8) : Prop :=
  (∃ b bs, octets = b :: bs ∧ iei > 0 ∧ iei ≠ b) ∨
    ∃ ielen rest, octets = tag iei ++ ielen :: rest ∧ (ielen.toNat ≤ rest.length → P ielen rest)

theorem element_cons {P : UInt8 → List UInt8 → Prop} (hiei : iei > 0) : Element iei P (iei :: rest) ↔
    ∃ ielen bs, rest = ielen :: bs ∧ (ielen.toNat ≤ bs.length → P ielen bs) := by
  have htag : tag iei = [iei] := if_pos hiei
  simp [Element, htag]

section Length

variable {len : ℕ} {k : ℕ × UInt8 → Except Stop (ℕ × α)} {P : UInt8 → List UInt8 → Prop}

theorem sound_decodeLengthAt {octets : List UInt8} (h : At buffer decoded octets)
    (hlen : buffer.length < 4294967296) (hk : ∀ ielen rest, ielen.toNat ≤ rest.length →
      At buffer (decoded + 1) rest → (Sound len (k (decoded + 1, ielen)) ↔ P ielen rest)) :
    Sound len (decodeLength.decodeLengthAt buffer buffer.length decoded >>= k) ↔
      ∃ ielen rest, octets = ielen :: rest ∧ (ielen.toNat ≤ rest.length → P ielen rest) := by
  cases octets with
  | nil =>
    rw [decodeLength.decodeLengthAt, h.octet_nil]
    exact iff_of_false not_sound_overread nofun
  | cons ielen rest =>
    rw [decodeLength.decodeLengthAt, h.octet_cons, ok_bind, h.tail.uint32Sub hlen]
    have hsplit : (∃ ielen' rest', ielen :: rest = ielen' :: rest' ∧
        (ielen'.toNat ≤ rest'.length → P ielen' rest')) ↔ (ielen.toNat ≤ rest.length → P ielen rest) := by
      simp
    rw [hsplit]
    by_cases hshort : rest.length < ielen.toNat
    · rw [if_pos hshort]
      refine iff_of_true ?_ fun hle ↦ absurd hle (Nat.not_le.2 hshort)
      exact sound_code.2 (by decide)
    · have hle := Nat.not_lt.1 hshort
      rw [if_neg hshort, pure_eq_ok, ok_bind, hk ielen rest hle h.tail]
      exact ⟨fun hP _ ↦ hP, fun hP ↦ hP hle⟩

/-- A decoder that goes on with `k` behind the length octet. -/
theorem sound_decodeLength (hlen : buffer.length < 4294967296) (hk : ∀ ielen rest,
      ielen.toNat ≤ rest.length → At buffer ((tag iei).length + 1) rest →
        (Sound len (k ((tag iei).length + 1, ielen)) ↔ P ielen rest)) :
    Sound len (decodeLength iei buffer buffer.length >>= k) ↔ Element iei P buffer := by
  rw [decodeLength, Element]
  by_cases hiei : iei > 0
  · have htag : tag iei = [iei] := if_pos hiei
    rw [htag] at hk ⊢
    rw [if_pos hiei]
    cases buffer with
    | nil =>
      refine iff_of_false not_sound_overread fun h ↦ ?_
      obtain ⟨_, _, h, _⟩ | ⟨_, _, h, _⟩ := h
      · exact nomatch h
      · exact nomatch h
    | cons b bs =>
      rw [(At.start (b :: bs)).octet_cons, ok_bind]
      by_cases hb : iei ≠ b
      · rw [if_pos hb]
        refine iff_of_true ?_ (.inl ⟨b, bs, rfl, hiei, hb⟩)
        exact sound_code.2 (by decide)
      · rw [if_neg hb, sound_decodeLengthAt (At.start (b :: bs)).tail hlen hk]
        rw [not_not] at hb
        subst hb
        simp
  · have htag : tag iei = [] := if_neg hiei
    rw [htag] at hk ⊢
    rw [if_neg hiei, sound_decodeLengthAt (At.start buffer) hlen hk]
    simp [hiei]

end Length

/-- The containers of protocol configuration options, when so many more of them can be stored: nothing is
left behind them, or a container that is longer than the message and refused. -/
inductive ContainersFit : ℕ → List UInt8 → Prop
  | done (free : ℕ) : ContainersFit free []
  | refused {free : ℕ} {p q length : UInt8} {rest : List UInt8} (h : rest.length < length.toNat) :
    ContainersFit (free + 1) (p :: q :: length :: rest)
  | next {free : ℕ} {p q length : UInt8} {rest : List UInt8} (h : length.toNat ≤ rest.length)
    (tail : ContainersFit free (rest.drop length.toNat)) : ContainersFit (free + 1) (p :: q :: length :: rest)

theorem containersFit_cons {free : ℕ} {p q length : UInt8} :
    ContainersFit (free + 1) (p :: q :: length :: rest) ↔
      (length.toNat ≤ rest.length → ContainersFit free (rest.drop length.toNat)) := by
  constructor
  · intro h hle
    cases h with
    | refused h => exact absurd hle (Nat.not_le.2 h)
    | next _ tail => exact tail
  · intro h
    rcases Nat.lt_or_ge rest.length length.toNat with hlt | hle
    · exact .refused hlt
    · exact .next hle (h hle)

theorem not_containersFit {free : ℕ} (hpos : 0 < rest.length) (hshort : rest.length < 3) :
    ¬ContainersFit free rest := by
  intro h
  cases h with
  | done => exact absurd hpos (Nat.lt_irrefl 0)
  | refused | next =>
    simp only [List.length_cons] at hshort
    omega

theorem sound_decodeContainers (hlen : buffer.length < 4294967296) (fuel : ℕ) (h : At buffer decoded rest)
    (hfuel : rest.length ≤ fuel) (pco : ProtocolConfigurationOptions)
    (hnum : pco.numProtocolIdOrContainerId.toNat ≤
      PROTOCOL_CONFIGURATION_OPTIONS_MAXIMUM_PROTOCOL_ID_OR_CONTAINER_ID) :
    Sound buffer.length (decodeContainers buffer buffer.length fuel decoded pco) ↔
      ContainersFit (PROTOCOL_CONFIGURATION_OPTIONS_MAXIMUM_PROTOCOL_ID_OR_CONTAINER_ID -
        pco.numProtocolIdOrContainerId.toNat) rest := by
  induction fuel generalizing decoded rest pco with
  | zero =>
    obtain rfl := List.length_eq_zero_iff.1 (Nat.le_zero.1 hfuel)
    rw [decodeContainers, h.uint32Sub hlen]
    exact iff_of_true (sound_ok.2 (by have := h.length; omega)) (.done _)
  | succ fuel ih =>
    rw [decodeContainers, h.uint32Sub hlen]
    have hmore : ∀ b (bs : List UInt8), (b :: bs).length > 0 := fun _ bs ↦ Nat.succ_pos bs.length
    match rest, h, hfuel with
    | [], h, _ => exact iff_of_true (sound_ok.2 (by have := h.length; omega)) (.done _)
    | [p], h, _ =>
      rw [if_pos (hmore _ _), octets_of_lt (by rw [h.drop]; exact Nat.lt_succ_self 1)]
      exact iff_of_false not_sound_overread (not_containersFit Nat.one_pos (by simp))
    | [p, q], h, _ =>
      rw [if_pos (hmore _ _), octets_of_le (by rw [h.drop]; exact Nat.le_refl 2), ok_bind,
        h.tail.tail.octet_nil]
      refine iff_of_false (fun hsound ↦ ?_) (not_containersFit Nat.two_pos (by simp))
      rw [assign] at hsound
      split at hsound
      · exact not_sound_overread hsound
      · exact not_sound_overwrite hsound
    | p :: q :: length :: rest, h, hfuel =>
      rw [if_pos (hmore _ _), octets_of_le (by rw [h.drop]; simp), ok_bind]
      rcases Nat.eq_or_lt_of_le hnum with hfull | hfree
      · rw [assign_of_le hfull.ge, error_bind, hfull, Nat.sub_self]
        exact iff_of_false not_sound_overwrite nofun
      · obtain ⟨free, hsub⟩ : ∃ free, PROTOCOL_CONFIGURATION_OPTIONS_MAXIMUM_PROTOCOL_ID_OR_CONTAINER_ID -
            pco.numProtocolIdOrContainerId.toNat = free + 1 := ⟨_, (Nat.succ_pred_eq_of_pos (by omega)).symm⟩
        have hbehind : At buffer (decoded + 3) rest := h.tail.tail.tail
        have hfuel' : rest.length ≤ fuel := by
          simp only [List.length_cons] at hfuel
          omega
        have hput : pco.numProtocolIdOrContainerId.toNat + 1 =
            (pco.numProtocolIdOrContainerId + 1).toNat := by
          rw [UInt8.toNat_add]
          change _ < 16 at hfree
          change _ = (_ + 1) % 256
          omega
        have hnext : ∀ (n : ℕ) (protocolid : ℕ → UInt16) (contents : OctetString), n ≤ rest.length →
            (Sound buffer.length (decodeContainers buffer buffer.length fuel (decoded + 3 + n)
              (pco.put protocolid length contents)) ↔ ContainersFit free (rest.drop n)) := by
          intro n protocolid contents hn
          have hrest := ih (hbehind.skip hn) (by rw [List.length_drop]; omega)
            (pco.put protocolid length contents) (by change (_ + 1 : UInt8).toNat ≤ _; omega)
          have hfree' : PROTOCOL_CONFIGURATION_OPTIONS_MAXIMUM_PROTOCOL_ID_OR_CONTAINER_ID -
              (pco.put protocolid length contents).numProtocolIdOrContainerId.toNat = free := by
            change _ - (_ + 1 : UInt8).toNat = _
            omega
          rw [hrest, hfree']
        rw [assign_of_lt hfree, ok_bind, h.tail.tail.octet_cons, ok_bind, hsub, containersFit_cons]
        dsimp only
        by_cases hpos : length > 0
        · rw [if_pos hpos, decodeOctetString, hbehind.uint32Sub hlen]
          by_cases hlong : rest.length < length.toNat
          · rw [if_pos hlong]
            refine iff_of_true ?_ fun hle ↦ absurd hle (Nat.not_le.2 hlong)
            exact sound_code.2 (by decide)
          · have hle := Nat.not_lt.1 hlong
            rw [if_neg hlong, octets_of_le (by rw [hbehind.drop]; exact hle)]
            refine (hnext length.toNat _ _ hle).trans ⟨fun hfit _ ↦ hfit, fun hfit ↦ hfit hle⟩
        · have hzero : length.toNat = 0 := Nat.eq_zero_of_not_pos hpos
          rw [if_neg hpos, hzero]
          exact (hnext 0 _ _ (Nat.zero_le _)).trans ⟨fun hfit _ ↦ hfit, fun hfit ↦ hfit (Nat.zero_le _)⟩

/-- Behind the length octet, the octets of protocol configuration options. -/
def OptionsFit : List UInt8 → Prop
  | [] => False
  | b :: bs => (b >>> 7) &&& 0x1 = 1 → (b &&& 0x78) >>> 3 = 0 →
    ContainersFit PROTOCOL_CONFIGURATION_OPTIONS_MAXIMUM_PROTOCOL_ID_OR_CONTAINER_ID bs

theorem sound_decodeProtocolConfigurationOptions (hlen : buffer.length < 4294967296)
    (pco : ProtocolConfigurationOptions) :
    Sound buffer.length (decodeProtocolConfigurationOptions iei buffer buffer.length pco) ↔
      Element iei (fun _ rest ↦ OptionsFit rest) buffer := by
  refine sound_decodeLength hlen fun ielen rest _ h ↦ ?_
  dsimp only
  cases rest with
  | nil =>
    rw [h.octet_nil]
    exact iff_of_false not_sound_overread id
  | cons b bs =>
    rw [h.octet_cons, ok_bind, OptionsFit]
    by_cases hext : (b >>> 7) &&& 0x1 = 1
    · by_cases hspare : (b &&& 0x78) >>> 3 = 0
      · rw [if_neg (not_not.2 hext), if_neg (not_not.2 hspare)]
        have hfuel : bs.length ≤ buffer.length := by
          have := h.length
          rw [List.length_cons] at this
          omega
        refine (sound_decodeContainers hlen buffer.length h.tail hfuel _ (Nat.zero_le _)).trans ?_
        exact ⟨fun hfit _ _ ↦ hfit, fun hfit ↦ hfit hext hspare⟩
      · rw [if_neg (not_not.2 hext), if_pos hspare]
        refine iff_of_true ?_ fun _ h ↦ absurd h hspare
        exact sound_code.2 (by decide)
    · rw [if_pos hext]
      refine iff_of_true ?_ fun h ↦ absurd h hext
      exact sound_code.2 (by decide)

/-- The contents of a packet filter, of which so many octets are to come: `none` where a component type is
refused, otherwise what is behind the last component. -/
inductive ContentsFit : ℕ → List UInt8 → Option (List UInt8) → Prop
  | done (rest : List UInt8) : ContentsFit 0 rest (some rest)
  | refused {left : ℕ} {t : UInt8} {rest : List UInt8} (h : ComponentType.ofCode t = none) :
    ContentsFit (left + 1) (t :: rest) none
  | next {left : ℕ} {t : UInt8} {c : ComponentType} {rest : List UInt8} {r : Option (List UInt8)}
    (h : ComponentType.ofCode t = some c) (hreads : c.reads ≤ rest.length)
    (tail : ContentsFit (left - c.size) (rest.drop c.size) r) : ContentsFit (left + 1) (t :: rest) r

/-- How the loop over the components ends. -/
def ContentsEnd (buffer : List UInt8) : Option (List UInt8) → Except Stop (ℕ × FilterContents) → Prop
  | some rest, result => ∃ decoded f, result = .ok (decoded, f) ∧ At buffer decoded rest
  | none, result => result = .error (.code TLV_DECODE_UNEXPECTED_IEI)

theorem decodeContents_end {pkfstart pkflen left : ℕ} {r : Option (List UInt8)}
    (hfit : ContentsFit left rest r) (h : At buffer decoded rest) (fuel : ℕ) (f : FilterContents)
    (hstart : pkfstart ≤ decoded) (hleft : pkflen - (decoded - pkfstart) = left) (hfuel : left ≤ fuel) :
    ContentsEnd buffer r (decodeContents buffer pkfstart pkflen fuel decoded f) := by
  induction hfit generalizing decoded fuel f with
  | done rest =>
    have hdone : ¬decoded - pkfstart < pkflen := by omega
    refine ⟨decoded, f, ?_, h⟩
    cases fuel with
    | zero => rw [decodeContents, if_neg hdone]; rfl
    | succ fuel => rw [decodeContents, if_neg hdone]; rfl
  | refused ht =>
    obtain ⟨fuel, rfl⟩ := Nat.exists_eq_succ_of_ne_zero (by omega : fuel ≠ 0)
    rw [decodeContents, if_pos (by omega), h.octet_cons, ok_bind, ht]
    rfl
  | @next left t c rest r ht hreads tail ih =>
    obtain ⟨fuel, rfl⟩ := Nat.exists_eq_succ_of_ne_zero (by omega : fuel ≠ 0)
    have hsize := c.size_pos
    rw [decodeContents, if_pos (by omega), h.octet_cons, ok_bind, ht]
    dsimp only
    rw [octets_of_le (by rw [h.tail.drop]; exact hreads), ok_bind]
    exact ih (h.tail.skip (c.size_le_reads.trans hreads)) fuel _ (by omega) (by omega) (by omega)

theorem decodeContents_cases {pkfstart pkflen left : ℕ} (h : At buffer decoded rest) (fuel : ℕ)
    (f : FilterContents) (hstart : pkfstart ≤ decoded) (hleft : pkflen - (decoded - pkfstart) = left)
    (hfuel : left ≤ fuel) : (∃ r, ContentsFit left rest r) ∨
      decodeContents buffer pkfstart pkflen fuel decoded f = .error .overread := by
  induction fuel generalizing decoded rest f left with
  | zero =>
    obtain rfl := Nat.le_zero.1 hfuel
    exact .inl ⟨_, .done rest⟩
  | succ fuel ih =>
    rw [decodeContents]
    cases left with
    | zero => exact .inl ⟨_, .done rest⟩
    | succ left =>
      rw [if_pos (by omega)]
      cases rest with
      | nil => exact .inr (by rw [h.octet_nil]; rfl)
      | cons t rest =>
        rw [h.octet_cons, ok_bind]
        cases hc : ComponentType.ofCode t with
        | none => exact .inl ⟨none, .refused hc⟩
        | some c =>
          have hsize := c.size_pos
          dsimp only
          rcases Nat.lt_or_ge rest.length c.reads with hshort | hreads
          · exact .inr (by rw [octets_of_lt (by rw [h.tail.drop]; exact hshort)]; rfl)
          · rw [octets_of_le (by rw [h.tail.drop]; exact hreads), ok_bind]
            have hleft' : pkflen - (decoded + 1 + c.size - pkfstart) = left - c.size := by omega
            refine (ih (h.tail.skip (c.size_le_reads.trans hreads)) _ (by omega) hleft'
              (by omega)).imp_left fun hr ↦ ?_
            obtain ⟨r, hr⟩ := hr
            exact ⟨r, .next hc hreads hr⟩

/-- The packet filters that are to come, when so many more of them can be stored. -/
inductive FiltersFit : ℕ → ℕ → List UInt8 → Prop
  | done (free : ℕ) (rest : List UInt8) : FiltersFit 0 free rest
  | missing (n free : ℕ) : FiltersFit (n + 1) free []
  | refused {n free : ℕ} {b precedence pkflen : UInt8} {rest : List UInt8}
    (contents : ContentsFit pkflen.toNat rest none) :
    FiltersFit (n + 1) (free + 1) (b :: precedence :: pkflen :: rest)
  | next {n free : ℕ} {b precedence pkflen : UInt8} {rest after : List UInt8}
    (contents : ContentsFit pkflen.toNat rest (some after)) (tail : FiltersFit n free after) :
    FiltersFit (n + 1) (free + 1) (b :: precedence :: pkflen :: rest)

theorem filtersFit_cons {n free : ℕ} {b precedence pkflen : UInt8} :
    FiltersFit (n + 1) (free + 1) (b :: precedence :: pkflen :: rest) ↔
      ContentsFit pkflen.toNat rest none ∨
        ∃ after, ContentsFit pkflen.toNat rest (some after) ∧ FiltersFit n free after := by
  constructor
  · intro h
    cases h with
    | refused contents => exact .inl contents
    | next contents tail => exact .inr ⟨_, contents, tail⟩
  · intro h
    obtain contents | ⟨after, contents, tail⟩ := h
    · exact .refused contents
    · exact .next contents tail

theorem sound_decodeFilters (hlen : buffer.length < 4294967296) (n : ℕ) {i : ℕ}
    (h : At buffer decoded rest) (packetfilters : ℕ → FilterEntry)
    (hi : i ≤ TRAFFIC_FLOW_TEMPLATE_NB_PACKET_FILTERS_MAX) :
    Sound buffer.length (decodeFilters buffer buffer.length n i decoded packetfilters) ↔
      FiltersFit n (TRAFFIC_FLOW_TEMPLATE_NB_PACKET_FILTERS_MAX - i) rest := by
  induction n generalizing decoded rest i packetfilters with
  | zero =>
    refine iff_of_true ?_ (.done _ rest)
    rw [decodeFilters]
    split
    · exact sound_code.2 (by decide)
    · exact sound_ok.2 (by have := h.length; omega)
  | succ n ih =>
    rw [decodeFilters, h.uint32Sub hlen]
    cases rest with
    | nil =>
      have hnone : ([] : List UInt8).length ≤ 0 := Nat.le_refl 0
      rw [if_pos hnone]
      refine iff_of_true ?_ (.missing n _)
      exact sound_code.2 (by decide)
    | cons b rest =>
      have hmore : ¬(b :: rest).length ≤ 0 := Nat.not_succ_le_zero _
      rw [if_neg hmore, decodeFilter]
      rcases Nat.eq_or_lt_of_le hi with hfull | hfree
      · rw [assign_of_le hfull.ge, hfull, Nat.sub_self]
        exact iff_of_false not_sound_overwrite nofun
      · obtain ⟨free, hsub⟩ : ∃ free, TRAFFIC_FLOW_TEMPLATE_NB_PACKET_FILTERS_MAX - i = free + 1 :=
          ⟨_, (Nat.succ_pred_eq_of_pos (by omega)).symm⟩
        rw [assign_of_lt hfree, ok_bind, h.octet_cons, ok_bind, hsub]
        match rest, h with
        | [], h =>
          rw [h.tail.octet_nil]
          exact iff_of_false not_sound_overread nofun
        | [precedence], h =>
          rw [h.tail.octet_cons, ok_bind, h.tail.tail.octet_nil]
          exact iff_of_false not_sound_overread nofun
        | precedence :: pkflen :: rest, h =>
          rw [h.tail.octet_cons, ok_bind, h.tail.tail.octet_cons, ok_bind]
          have hbehind : At buffer (decoded + 3) rest := h.tail.tail.tail
          have hleft : pkflen.toNat - (decoded + 3 - (decoded + 3)) = pkflen.toNat := by omega
          have hfree' : TRAFFIC_FLOW_TEMPLATE_NB_PACKET_FILTERS_MAX - (i + 1) = free := by omega
          let f := (packetfilters i).packetfilter.setFlags 0
          rw [filtersFit_cons]
          constructor
          · intro hsound
            rcases decodeContents_cases hbehind pkflen.toNat f (Nat.le_refl _) hleft (Nat.le_refl _) with
              ⟨r, hr⟩ | hover
            · have hend := decodeContents_end hr hbehind pkflen.toNat f (Nat.le_refl _) hleft (Nat.le_refl _)
              cases r with
              | none => exact .inl hr
              | some after =>
                obtain ⟨decoded', f', hok, hat⟩ := hend
                rw [hok, ok_bind] at hsound
                exact .inr ⟨after, hr, hfree' ▸ (ih hat _ hfree).1 hsound⟩
            · rw [hover] at hsound
              exact absurd hsound not_sound_overread
          · intro hfit
            obtain hr | ⟨after, hr, htail⟩ := hfit
            · have hend := decodeContents_end hr hbehind pkflen.toNat f (Nat.le_refl _) hleft (Nat.le_refl _)
              rw [show decodeContents _ _ _ _ _ _ = _ from hend, error_bind]
              exact sound_code.2 (by decide)
            · obtain ⟨decoded', f', hok, hat⟩ :=
                decodeContents_end hr hbehind pkflen.toNat f (Nat.le_refl _) hleft (Nat.le_refl _)
              rw [hok, ok_bind]
              exact (ih hat _ hfree).2 (hfree' ▸ htail)

/-- A decoder that works on the rest of the message. -/
theorem sound_rest {β : Type} (h : At buffer decoded rest) (result : Except Stop (ℕ × α))
    {k : ℕ × α → Except Stop (ℕ × β)} (hk : ∀ r, ∃ b, k r = .ok (decoded + r.1, b)) :
    Sound buffer.length (result >>= k) ↔ Sound rest.length result := by
  have := h.length
  cases result with
  | error s => cases s <;> exact Iff.rfl
  | ok r =>
    obtain ⟨b, hb⟩ := hk r
    rw [ok_bind, hb]
    change decoded + r.1 ≤ _ ↔ r.1 ≤ _
    omega

/-- With at most 15 identifiers to read, the array is long enough. -/
theorem sound_decodeIdentifiers (hlen : buffer.length < 4294967296) (n : ℕ) (h : At buffer decoded rest)
    (identifiers : ℕ → UInt8) (hn : decoded + n < TRAFFIC_FLOW_TEMPLATE_PACKET_IDENTIFIER_MAX) :
    Sound buffer.length (decodeIdentifiers buffer buffer.length n decoded identifiers) := by
  induction n generalizing decoded rest identifiers with
  | zero => exact sound_ok.2 (by have := h.length; omega)
  | succ n ih =>
    rw [decodeIdentifiers, h.uint32Sub hlen]
    cases rest with
    | nil => exact sound_ok.2 (by have := h.length; omega)
    | cons b rest =>
      have hmore : (b :: rest).length > 0 := Nat.succ_pos rest.length
      rw [if_pos hmore, h.octet_cons, ok_bind, assign_of_lt (by omega), ok_bind]
      exact ih h.tail _ (by omega)

/-- Behind the length octet, the octets of a traffic flow template. -/
def TemplateFit : List UInt8 → Prop
  | [] => False
  | b :: bs => hasFilters (BitVec.ofNat 3 ((b >>> 5) &&& 0x7).toNat) = true →
    FiltersFit (b &&& 0xf).toNat TRAFFIC_FLOW_TEMPLATE_NB_PACKET_FILTERS_MAX bs

theorem number_of_octet (b : UInt8) : (BitVec.ofNat 4 (b &&& 0xf).toNat).toNat = (b &&& 0xf).toNat := by
  have hle : (b &&& 0xf).toNat ≤ 15 := Nat.and_le_right
  rw [BitVec.toNat_ofNat]
  omega

theorem sound_decodeTrafficFlowTemplate (hlen : buffer.length < 4294967296) (tft : TrafficFlowTemplate) :
    Sound buffer.length (decodeTrafficFlowTemplate iei buffer buffer.length tft) ↔
      Element iei (fun _ rest ↦ TemplateFit rest) buffer := by
  refine sound_decodeLength hlen fun ielen rest _ h ↦ ?_
  dsimp only
  cases rest with
  | nil =>
    rw [h.octet_nil]
    exact iff_of_false not_sound_overread id
  | cons b bs =>
    have hbehind := h.tail
    have hbs : bs.length < 4294967296 := by
      have := hbehind.length
      omega
    have hnumber := number_of_octet b
    rw [h.octet_cons, ok_bind, TemplateFit, hbehind.uint32Sub hlen, hbehind.drop]
    rw [hnumber]
    by_cases hdelete : BitVec.ofNat 3 ((b >>> 5) &&& 0x7).toNat = TRAFFIC_FLOW_TEMPLATE_OPCODE_DELETE_PACKET
    · have hno : ¬hasFilters (BitVec.ofNat 3 ((b >>> 5) &&& 0x7).toNat) = true :=
        fun h ↦ ne_delete_of_hasFilters h hdelete
      rw [if_pos hdelete]
      refine iff_of_true ?_ fun h ↦ absurd h hno
      have hle : (b &&& 0xf).toNat ≤ 15 := Nat.and_le_right
      refine (sound_rest hbehind _ fun _ ↦ ⟨_, rfl⟩).2 (sound_decodeIdentifiers hbs _ (.start bs) _ ?_)
      change 0 + _ < 16
      omega
    · rw [if_neg hdelete]
      by_cases hop : hasFilters (BitVec.ofNat 3 ((b >>> 5) &&& 0x7).toNat) = true
      · rw [if_pos hop]
        refine (sound_rest hbehind _ fun _ ↦ ⟨_, rfl⟩).trans ?_
        refine (sound_decodeFilters hbs _ (.start bs) _ (Nat.zero_le _)).trans ?_
        exact ⟨fun hfit _ ↦ hfit, fun hfit ↦ hfit hop⟩
      · rw [if_neg hop]
        refine iff_of_true ?_ fun h ↦ absurd h hop
        have := hbehind.length
        exact sound_ok.2 (by omega)

/-- The emergency numbers from position `d` of the element on, when so many more of them are stored, and what
is behind them. -/
inductive NumbersFit (ielen : UInt8) : ℕ → ℕ → List UInt8 → List UInt8 → Prop
  | full (d : ℕ) (rest : List UInt8) : NumbersFit ielen 0 d rest rest
  | done {n d : ℕ} (h : ielen.toNat ≤ d) (rest : List UInt8) : NumbersFit ielen n d rest rest
  | next {n d : ℕ} {length category : UInt8} {rest after : List UInt8} (h : d < ielen.toNat)
    (hdigits : length.toNat - 1 ≤ EMERGENCY_NUMBER_LIST_MAX_2DIGITS)
    (hinside : length.toNat - 1 ≤ rest.length)
    (tail : NumbersFit ielen n (d + 2 + (length.toNat - 1)) (rest.drop (length.toNat - 1)) after) :
    NumbersFit ielen (n + 1) d (length :: category :: rest) after

theorem decodeDigits_ok (n : ℕ) {i : ℕ} (h : At buffer decoded rest) (digits : ℕ → UInt8)
    (hi : i + n ≤ EMERGENCY_NUMBER_LIST_MAX_2DIGITS) (hn : n ≤ rest.length) :
    ∃ digits', decodeDigits buffer n i decoded digits = .ok (decoded + n, digits') := by
  induction n generalizing decoded rest i digits with
  | zero => exact ⟨_, rfl⟩
  | succ n ih =>
    obtain ⟨b, rest, rfl⟩ := List.exists_cons_of_length_pos (by omega : 0 < rest.length)
    obtain ⟨digits', hok⟩ := ih h.tail (update digits i b) (by omega : i + 1 + n ≤ _) (by simpa using hn)
    refine ⟨digits', ?_⟩
    rw [decodeDigits, h.octet_cons, ok_bind, assign_of_lt (by omega), ok_bind, hok]
    congr 2
    omega

theorem decodeDigits_stops (n : ℕ) {i : ℕ} (h : At buffer decoded rest) (digits : ℕ → UInt8)
    (hbad : ¬(i + n ≤ EMERGENCY_NUMBER_LIST_MAX_2DIGITS ∧ n ≤ rest.length))
    (hi : i ≤ EMERGENCY_NUMBER_LIST_MAX_2DIGITS) :
    decodeDigits buffer n i decoded digits = .error .overread ∨
      decodeDigits buffer n i decoded digits = .error .overwrite := by
  induction n generalizing decoded rest i digits with
  | zero => exact absurd ⟨hi, Nat.zero_le _⟩ hbad
  | succ n ih =>
    rw [decodeDigits]
    cases rest with
    | nil => exact .inl (by rw [h.octet_nil]; rfl)
    | cons b rest =>
      rw [h.octet_cons, ok_bind]
      rcases Nat.eq_or_lt_of_le hi with hfull | hfree
      · exact .inr (by rw [assign_of_le hfull.ge]; rfl)
      · rw [assign_of_lt hfree, ok_bind]
        refine ih h.tail _ (fun hgood ↦ hbad ?_) hfree
        rw [List.length_cons]
        omega

/-- What the decoder of the emergency numbers does with octets on which it keeps to the message. -/
theorem decodeNumbers_ok {ielen : UInt8} {n : ℕ} {after : List UInt8}
    (hfit : NumbersFit ielen n decoded rest after) (h : At buffer decoded rest) (i : ℕ)
    (list : EmergencyNumberList) : ∃ decoded' list',
      decodeNumbers buffer ielen n i decoded list = .ok (decoded', list') ∧ At buffer decoded' after ∧
        decoded ≤ decoded' := by
  induction hfit generalizing i list with
  | full d rest => exact ⟨d, list, rfl, h, Nat.le_refl d⟩
  | @done n d hend rest =>
    refine ⟨d, list, ?_, h, Nat.le_refl d⟩
    cases n with
    | zero => rfl
    | succ n => rw [decodeNumbers, if_neg (Nat.not_lt.2 hend)]; rfl
  | @next n d length category rest after hmore hdigits hinside tail ih =>
    have hbehind : At buffer (d + 2) rest := h.tail.tail
    obtain ⟨digits, hok⟩ := decodeDigits_ok (length.toNat - 1) hbehind
      (list.emergencyNumberInformation i).bcdDigits (by rwa [Nat.zero_add]) hinside
    rw [decodeNumbers, if_pos hmore, h.octet_cons, ok_bind, h.tail.octet_cons, ok_bind, hok, ok_bind]
    obtain ⟨decoded', list', hrest, hat, hle⟩ := ih (hbehind.skip hinside) (i + 1) _
    exact ⟨decoded', list', hrest, hat, by omega⟩

theorem decodeNumbers_cases {ielen : UInt8} (n : ℕ) (h : At buffer decoded rest) (i : ℕ)
    (list : EmergencyNumberList) :
    (∃ after, NumbersFit ielen n decoded rest after) ∨
      decodeNumbers buffer ielen n i decoded list = .error .overread ∨
        decodeNumbers buffer ielen n i decoded list = .error .overwrite := by
  induction n generalizing decoded rest i list with
  | zero => exact .inl ⟨rest, .full decoded rest⟩
  | succ n ih =>
    rw [decodeNumbers]
    rcases Nat.lt_or_ge decoded ielen.toNat with hmore | hend
    · rw [if_pos hmore]
      match rest, h with
      | [], h => exact .inr (.inl (by rw [h.octet_nil]; rfl))
      | [length], h => exact .inr (.inl (by rw [h.octet_cons, ok_bind, h.tail.octet_nil]; rfl))
      | length :: category :: rest, h =>
        have hbehind : At buffer (decoded + 2) rest := h.tail.tail
        rw [h.octet_cons, ok_bind, h.tail.octet_cons, ok_bind]
        by_cases hgood : 0 + (length.toNat - 1) ≤ EMERGENCY_NUMBER_LIST_MAX_2DIGITS ∧
            length.toNat - 1 ≤ rest.length
        · obtain ⟨digits, hok⟩ := decodeDigits_ok _ hbehind (list.emergencyNumberInformation i).bcdDigits
            hgood.1 hgood.2
          rw [hok, ok_bind]
          refine (ih (hbehind.skip hgood.2) (i + 1) _).imp_left fun hfit ↦ ?_
          obtain ⟨after, hfit⟩ := hfit
          exact ⟨after, .next hmore (by omega) hgood.2 hfit⟩
        · obtain hstop | hstop := decodeDigits_stops _ hbehind (list.emergencyNumberInformation i).bcdDigits
            hgood (Nat.zero_le _)
          · exact .inr (.inl (by rw [hstop]; rfl))
          · exact .inr (.inr (by rw [hstop]; rfl))
    · exact .inl ⟨rest, .done hend rest⟩

/-- A function that goes on with `k` behind the emergency numbers. -/
theorem sound_emergencyNumbers {β : Type} {len : ℕ} {P : List UInt8 → Prop}
    {k : ℕ × EmergencyNumberList → Except Stop (ℕ × β)} (hlen : buffer.length < 4294967296)
    (hk : ∀ n after list, 0 < n → At buffer n after → (Sound len (k (n, list)) ↔ P after))
    (list : EmergencyNumberList) :
    Sound len (decodeEmergencyNumberList iei buffer buffer.length list >>= k) ↔
      Element iei (fun ielen rest ↦ ∃ after, NumbersFit ielen EMERGENCY_NUMBER_LIST_MAX_NUMBER_INFORMATION
        ((tag iei).length + 1) rest after ∧ P after) buffer := by
  rw [decodeEmergencyNumberList, bind_assoc]
  refine sound_decodeLength hlen fun ielen rest _ h ↦ ?_
  dsimp only
  constructor
  · intro hsound
    obtain hfit | hstop | hstop := decodeNumbers_cases EMERGENCY_NUMBER_LIST_MAX_NUMBER_INFORMATION h 0 list
    · obtain ⟨after, hfit⟩ := hfit
      obtain ⟨decoded, list', hok, hat, hle⟩ := decodeNumbers_ok hfit h 0 list
      rw [hok, ok_bind, hk decoded after list' (by omega) hat] at hsound
      exact ⟨after, hfit, hsound⟩
    · rw [hstop] at hsound
      exact absurd hsound not_sound_overread
    · rw [hstop] at hsound
      exact absurd hsound not_sound_overwrite
  · intro hfit
    obtain ⟨after, hfit, hafter⟩ := hfit
    obtain ⟨decoded, list', hok, hat, hle⟩ := decodeNumbers_ok hfit h 0 list
    rw [hok, ok_bind, hk decoded after list' (by omega) hat]
    exact hafter

/-- Behind the length octet, which is the octet before position `d`, the octets of emergency numbers. -/
def ListFit (d : ℕ) (ielen : UInt8) (rest : List UInt8) : Prop :=
  ∃ after, NumbersFit ielen EMERGENCY_NUMBER_LIST_MAX_NUMBER_INFORMATION d rest after

theorem sound_decodeEmergencyNumberList (hlen : buffer.length < 4294967296) (list : EmergencyNumberList) :
    Sound buffer.length (decodeEmergencyNumberList iei buffer buffer.length list) ↔
      Element iei (ListFit ((tag iei).length + 1)) buffer := by
  have hinside : ∀ n after (list' : EmergencyNumberList), 0 < n → At buffer n after →
      (Sound buffer.length (pure (n, list')) ↔ True) := by
    intro n after list' _ hat
    have := hat.length
    exact iff_true_intro (sound_ok.2 (by omega))
  have hsound : Sound buffer.length (decodeEmergencyNumberList iei buffer buffer.length list >>= pure) ↔ _ :=
    sound_emergencyNumbers hlen hinside list
  simp only [bind_pure, and_true] at hsound
  exact hsound

section AttachAccept

variable {ν : Type} {decoder : ElementDecoder ν}

/-- The optional elements that are to come, up to one that is refused. Those of other functions are refused or
not by these; a list of emergency numbers is longer than the message or holds such numbers. -/
inductive ElementsFit (decoder : ElementDecoder ν) : List UInt8 → Prop
  | done : ElementsFit decoder []
  | refused {b : UInt8} {rest : List UInt8} {e : AttachAcceptElement}
    (h : AttachAcceptElement.optional.find? (·.iei = ieiDecoded b) = some e)
    (hresult : (decoder e (b :: rest)).1 ≤ 0) : ElementsFit decoder (b :: rest)
  | next {b : UInt8} {rest : List UInt8} {e : AttachAcceptElement}
    (h : AttachAcceptElement.optional.find? (·.iei = ieiDecoded b) = some e)
    (hresult : 0 < (decoder e (b :: rest)).1)
    (tail : ElementsFit decoder ((b :: rest).drop (decoder e (b :: rest)).1.toNat)) :
    ElementsFit decoder (b :: rest)
  | longList {ielen : UInt8} {rest : List UInt8} (h : rest.length < ielen.toNat) :
    ElementsFit decoder (ATTACH_ACCEPT_EMERGENCY_NUMBER_LIST_IEI :: ielen :: rest)
  | list {ielen : UInt8} {rest after : List UInt8} (h : ielen.toNat ≤ rest.length)
    (numbers : NumbersFit ielen EMERGENCY_NUMBER_LIST_MAX_NUMBER_INFORMATION 2 rest after)
    (tail : ElementsFit decoder after) :
    ElementsFit decoder (ATTACH_ACCEPT_EMERGENCY_NUMBER_LIST_IEI :: ielen :: rest)

/-- The mandatory elements that are to come, up to one that is refused. -/
def MandatoryFit (decoder : ElementDecoder ν) : List AttachAcceptElement → List UInt8 → Prop
  | [], rest => ElementsFit decoder rest
  | e :: es, rest =>
    0 ≤ (decoder e rest).1 → MandatoryFit decoder es (rest.drop (decoder e rest).1.toNat)

/-- A message that is too short, or whose elements are such. -/
def AcceptFit (decoder : ElementDecoder ν) : List UInt8 → Prop
  | [] => True
  | b :: bs => ATTACH_ACCEPT_MINIMUM_LENGTH ≤ (b :: bs).length →
    MandatoryFit decoder AttachAcceptElement.mandatory bs

theorem find_emergency : AttachAcceptElement.optional.find?
    (·.iei = ieiDecoded ATTACH_ACCEPT_EMERGENCY_NUMBER_LIST_IEI) = none := by decide

theorem eq_of_ieiDecoded {b : UInt8} (h : ieiDecoded b = ATTACH_ACCEPT_EMERGENCY_NUMBER_LIST_IEI) :
    b = ATTACH_ACCEPT_EMERGENCY_NUMBER_LIST_IEI := by
  rw [ieiDecoded] at h
  split at h
  · have hhalf : (b &&& 0xf0) &&& 0x0f = 0 := by
      rw [UInt8.and_assoc]
      exact UInt8.and_zero
    rw [h] at hhalf
    exact absurd hhalf (by decide)
  · exact h

theorem elementsFit_some {b : UInt8} {e : AttachAcceptElement}
    (h : AttachAcceptElement.optional.find? (·.iei = ieiDecoded b) = some e) :
    ElementsFit decoder (b :: rest) ↔ (0 < (decoder e (b :: rest)).1 →
      ElementsFit decoder ((b :: rest).drop (decoder e (b :: rest)).1.toNat)) := by
  constructor
  · intro hfit hpos
    cases hfit with
    | refused h' hresult =>
      obtain rfl := Option.some.inj (h.symm.trans h')
      exact absurd hpos (Int.not_lt.2 hresult)
    | next h' _ tail =>
      obtain rfl := Option.some.inj (h.symm.trans h')
      exact tail
    | longList | list => exact absurd h (by rw [find_emergency]; simp)
  · intro htail
    rcases lt_or_ge 0 (decoder e (b :: rest)).1 with hpos | hneg
    · exact .next h hpos (htail hpos)
    · exact .refused h hneg

theorem elementsFit_list : ElementsFit decoder (ATTACH_ACCEPT_EMERGENCY_NUMBER_LIST_IEI :: rest) ↔
    ∃ ielen rest', rest = ielen :: rest' ∧ (ielen.toNat ≤ rest'.length → ∃ after,
      NumbersFit ielen EMERGENCY_NUMBER_LIST_MAX_NUMBER_INFORMATION 2 rest' after ∧
        ElementsFit decoder after) := by
  constructor
  · intro hfit
    cases hfit with
    | refused h | next h => exact absurd h (by rw [find_emergency]; simp)
    | longList h => exact ⟨_, _, rfl, fun hle ↦ absurd hle (Nat.not_le.2 h)⟩
    | list _ numbers tail => exact ⟨_, _, rfl, fun _ ↦ ⟨_, numbers, tail⟩⟩
  · intro hfit
    obtain ⟨ielen, rest', rfl, hfit⟩ := hfit
    rcases Nat.lt_or_ge rest'.length ielen.toNat with hlong | hle
    · exact .longList hlong
    · obtain ⟨after, numbers, tail⟩ := hfit hle
      exact .list hle numbers tail

theorem not_elementsFit {b : UInt8}
    (h : AttachAcceptElement.optional.find? (·.iei = ieiDecoded b) = none)
    (hb : ieiDecoded b ≠ ATTACH_ACCEPT_EMERGENCY_NUMBER_LIST_IEI) : ¬ElementsFit decoder (b :: rest) := by
  intro hfit
  cases hfit with
  | refused h' | next h' => exact absurd h' (by rw [h]; simp)
  | longList | list => exact hb (by decide)

theorem int32_sub_pos (h : At buffer decoded rest) (hlen : buffer.length < 2147483648) :
    int32 buffer.length - int32 decoded > 0 ↔ 0 < rest.length := by
  have := h.length
  have hbuffer : int32 buffer.length = buffer.length := by rw [int32]; omega
  have hdecoded : int32 decoded = decoded := by rw [int32]; omega
  rw [hbuffer, hdecoded]
  omega

theorem sound_decodeElements (hdecoder : Respects decoder) (hlen : buffer.length < 2147483648) (fuel : ℕ)
    (h : At buffer decoded rest) (hfuel : rest.length ≤ fuel) (msg : AttachAcceptMsg ν) :
    Sound buffer.length (decodeElements decoder buffer buffer.length fuel decoded msg) ↔
      ElementsFit decoder rest := by
  induction fuel generalizing decoded rest msg with
  | zero =>
    obtain rfl := List.length_eq_zero_iff.1 (Nat.le_zero.1 hfuel)
    have hmore : ¬int32 buffer.length - int32 decoded > 0 := fun hpos ↦
      Nat.lt_irrefl 0 ((int32_sub_pos h hlen).1 hpos)
    rw [decodeElements, if_neg hmore]
    exact iff_of_true (sound_ok.2 (by have := h.length; omega)) .done
  | succ fuel ih =>
    rw [decodeElements]
    cases rest with
    | nil =>
      have hmore : ¬int32 buffer.length - int32 decoded > 0 := fun hpos ↦
        Nat.lt_irrefl 0 ((int32_sub_pos h hlen).1 hpos)
      rw [if_neg hmore]
      exact iff_of_true (sound_ok.2 (by have := h.length; omega)) .done
    | cons b rest =>
      have hmore : int32 buffer.length - int32 decoded > 0 := (int32_sub_pos h hlen).2 (Nat.succ_pos _)
      have hleft : uint32Sub buffer.length decoded = (b :: rest).length := h.uint32Sub (by omega)
      rw [if_pos hmore, h.octet_cons, ok_bind, hleft, h.drop]
      dsimp only
      rw [List.take_length]
      cases he : AttachAcceptElement.optional.find? (·.iei = ieiDecoded b) with
      | some e =>
        rw [elementsFit_some he]
        have hrespects := hdecoder e (b :: rest)
        dsimp only
        by_cases hneg : (decoder e (b :: rest)).1 ≤ 0
        · rw [if_pos hneg]
          exact iff_of_true (sound_code.2 hneg) fun hpos ↦ absurd hpos (Int.not_lt.2 hneg)
        · have hpos := Int.not_le.1 hneg
          have hinside : (decoder e (b :: rest)).1.toNat ≤ (b :: rest).length := by omega
          have hfuel' : ((b :: rest).drop (decoder e (b :: rest)).1.toNat).length ≤ fuel := by
            rw [List.length_drop]
            omega
          rw [if_neg hneg, ih (h.skip hinside) hfuel']
          exact ⟨fun hfit _ ↦ hfit, fun hfit ↦ hfit hpos⟩
      | none =>
        by_cases hb : ieiDecoded b = ATTACH_ACCEPT_EMERGENCY_NUMBER_LIST_IEI
        · obtain rfl := eq_of_ieiDecoded hb
          have hcut : (ATTACH_ACCEPT_EMERGENCY_NUMBER_LIST_IEI :: rest).length < 4294967296 := by
            have := h.length
            omega
          have hiei : ATTACH_ACCEPT_EMERGENCY_NUMBER_LIST_IEI > 0 := by decide
          rw [elementsFit_list, if_pos hb]
          refine (sound_emergencyNumbers hcut (fun n after list hn hat ↦ ?_) _).trans (element_cons hiei)
          have hfuel' : after.length ≤ fuel := by
            have := hat.length
            omega
          dsimp only
          rw [if_neg (Nat.not_le.2 hn)]
          exact ih (h.add hat) hfuel' _
        · dsimp only
          rw [if_neg hb]
          exact iff_of_false not_sound_abort (not_elementsFit he hb)

theorem sound_decodeMandatory (hdecoder : Respects decoder) (hlen : buffer.length < 2147483648)
    (es : List AttachAcceptElement) (h : At buffer decoded rest) (msg : AttachAcceptMsg ν) :
    Sound buffer.length (decodeMandatory decoder buffer buffer.length es decoded msg >>= fun r ↦
      decodeElements decoder buffer buffer.length buffer.length r.1 r.2) ↔ MandatoryFit decoder es rest := by
  induction es generalizing decoded rest msg with
  | nil =>
    have hfuel : rest.length ≤ buffer.length := by
      have := h.length
      omega
    exact sound_decodeElements hdecoder hlen buffer.length h hfuel msg
  | cons e es ih =>
    have hleft : uint32Sub buffer.length decoded = rest.length := h.uint32Sub (by omega)
    have hrespects := hdecoder e rest
    rw [decodeMandatory, hleft, h.drop, List.take_length, MandatoryFit]
    dsimp only
    by_cases hneg : (decoder e rest).1 < 0
    · rw [if_pos hneg]
      exact iff_of_true (sound_code.2 hneg.le) fun hpos ↦ absurd hneg (Int.not_lt.2 hpos)
    · have hinside : (decoder e rest).1.toNat ≤ rest.length := by omega
      rw [if_neg hneg, ih (h.skip hinside)]
      exact ⟨fun hfit _ ↦ hfit, fun hfit ↦ hfit (Int.not_lt.1 hneg)⟩

theorem sound_decodeAttachAccept (hdecoder : Respects decoder) (hlen : buffer.length < 2147483648)
    (msg : AttachAcceptMsg ν) :
    Sound buffer.length (decodeAttachAccept decoder buffer buffer.length msg) ↔ AcceptFit decoder buffer := by
  rw [decodeAttachAccept]
  cases buffer with
  | nil => exact iff_of_true (sound_code.2 (by decide)) trivial
  | cons b bs =>
    by_cases hshort : (b :: bs).length < ATTACH_ACCEPT_MINIMUM_LENGTH
    · rw [if_pos hshort]
      refine iff_of_true ?_ fun hle ↦ absurd hshort (Nat.not_lt.2 hle)
      exact sound_code.2 (by decide)
    · rw [if_neg hshort, (At.start _).octet_cons, ok_bind]
      refine (sound_decodeMandatory hdecoder hlen _ (At.start _).tail _).trans ?_
      exact ⟨fun hfit _ ↦ hfit, fun hfit ↦ hfit (Nat.not_lt.1 hshort)⟩

end AttachAccept

theorem decoders_sound_iff {ν : Type} {decoder : ElementDecoder ν} (hdecoder : Respects decoder)
    (octets : List UInt8) (hlen : octets.length < 2147483648) (iei : UInt8) (msg : AttachAcceptMsg ν)
    (tft : TrafficFlowTemplate) (pco : ProtocolConfigurationOptions) (list : EmergencyNumberList) :
    (Sound octets.length (decodeAttachAccept decoder octets octets.length msg) ↔
        AcceptFit decoder octets) ∧
      (Sound octets.length (decodeTrafficFlowTemplate iei octets octets.length tft) ↔
        Element iei (fun _ rest ↦ TemplateFit rest) octets) ∧
      (Sound octets.length (decodeProtocolConfigurationOptions iei octets octets.length pco) ↔
        Element iei (fun _ rest ↦ OptionsFit rest) octets) ∧
      (Sound octets.length (decodeEmergencyNumberList iei octets octets.length list) ↔
        Element iei (ListFit ((tag iei).length + 1)) octets) := by
  have hlen' : octets.length < 4294967296 := hlen.trans (by decide)
  exact ⟨sound_decodeAttachAccept hdecoder hlen msg, sound_decodeTrafficFlowTemplate hlen' tft,
    sound_decodeProtocolConfigurationOptions hlen' pco, sound_decodeEmergencyNumberList hlen' list⟩

/-- Elements of these sizes. -/
def elementSize (octets : List UInt8) : AttachAcceptElement → ℕ
  | .t3412Value | .additionalUpdateResult => 1
  | .tailist => 7
  | .esmMessageContainer => 2 + beValue (octets.take 2)
  | .emmCause | .t3402Value | .t3423Value => 2
  | .locationAreaIdentification => 6
  | _ => 2 + (octets.getD 1 0).toNat

def sizedElement : ElementDecoder (List UInt8) := fun e octets ↦
  if elementSize octets e ≤ octets.length then (elementSize octets e, octets.take (elementSize octets e))
  else (TLV_DECODE_BUFFER_TOO_SHORT, [])

theorem sizedElement_respects : Respects sizedElement := by
  intro e octets
  rw [sizedElement]
  split
  case isTrue hle => exact Int.ofNat_le.2 hle
  case isFalse => exact (by decide : TLV_DECODE_BUFFER_TOO_SHORT ≤ 0).trans (Int.natCast_nonneg _)

def noNumbers : EmergencyNumberList := ⟨0, fun _ ↦ ⟨0, 0, fun _ ↦ 0⟩⟩

def noAccept : AttachAcceptMsg (List UInt8) := ⟨0, 0, fun _ ↦ [], noNumbers⟩

def noTemplate : TrafficFlowTemplate := ⟨0, 0, 0, fun _ ↦ ⟨0, 0, 0,
  ⟨0, fun _ ↦ ⟨0, 0⟩, fun _ ↦ ⟨0, 0⟩, 0, 0, ⟨0, 0⟩, 0, ⟨0, 0⟩, 0, ⟨0, 0⟩, 0⟩⟩, fun _ ↦ 0⟩

def noOptions : ProtocolConfigurationOptions := ⟨0, 0, fun _ ↦ 0, fun _ ↦ 0, fun _ ↦ []⟩

/-- The mandatory elements of a message with a container of two octets. -/
def mandatoryOctets : List UInt8 :=
  [0x01, 0x49, 0x06, 0x00, 0x02, 0xf8, 0x39, 0x00, 0x01, 0x00, 0x02, 0x52, 0x00]

/-- An emergency number of two octets. -/
def numberOctets : List UInt8 := [0x34, 0x04, 0x03, 0x01, 0x11, 0xf2]

theorem numberOctets_sound : Sound 19 (decodeAttachAccept sizedElement
    (mandatoryOctets ++ numberOctets) (mandatoryOctets ++ numberOctets).length noAccept) := by
  have hiff := (decoders_sound_iff sizedElement_respects (mandatoryOctets ++ numberOctets)
    (by decide) 0x34 noAccept noTemplate noOptions noNumbers).1
  have hnumber : NumbersFit 0x04 2 2 [0x03, 0x01, 0x11, 0xf2] [] :=
    .next (by decide) (by decide) (by decide) (.done (by decide) [])
  have helements : ElementsFit sizedElement numberOctets := .list (by decide) hnumber .done
  exact hiff.2 fun _ _ _ _ ↦ helements

/-- An identifier that is not known, five packet filters, one octet left over and seven octets of digits. -/
theorem not_sound_decoders :
    Respects sizedElement ∧
      ¬Sound 14 (decodeAttachAccept sizedElement (mandatoryOctets ++ [0x7f]) 14 noAccept) ∧
      ¬Sound 17 (decodeTrafficFlowTemplate 0 ([0x10, 0x25] ++
        [0x31, 0, 0, 0x32, 0, 0, 0x33, 0, 0, 0x34, 0, 0, 0x35, 0, 0]) 17 noTemplate) ∧
      ¬Sound 4 (decodeProtocolConfigurationOptions 0x27 [0x27, 0x02, 0x80, 0x00] 4 noOptions) ∧
      ¬Sound 11 (decodeEmergencyNumberList 0x34
        [0x34, 0x09, 0x08, 0x01, 0x11, 0x22, 0x33, 0x44, 0x55, 0x66, 0x77] 11 noNumbers) := by
  refine ⟨sizedElement_respects, ?_⟩
  decide

end EdgeSlice.Nas
