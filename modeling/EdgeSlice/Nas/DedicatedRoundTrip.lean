import EdgeSlice.Nas.DedicatedOctets
import Mathlib.Algebra.Order.BigOperators.Group.List
import Mathlib.Data.Nat.Bitwise

/-! What the decoder of the request makes of the octets that the encoder has written. -/

namespace EdgeSlice.Nas

open ByteMemory OctetReader Function

namespace ComponentType

variable {f g : FilterContents} {bs rest : List UInt8}

/-- The two filters have one value for the component. -/
def Same (f g : FilterContents) : ComponentType → Prop
  | ipv4RemoteAddr => g.ipv4remoteaddr = f.ipv4remoteaddr
  | ipv6RemoteAddr => g.ipv6remoteaddr = f.ipv6remoteaddr
  | protocolNextHeader => g.protocolidentifierNextheader = f.protocolidentifierNextheader
  | singleLocalPort => g.singlelocalport = f.singlelocalport
  | localPortRange => g.localportrange = f.localportrange
  | singleRemotePort => g.singleremoteport = f.singleremoteport
  | remotePortRange => g.remoteportrange = f.remoteportrange
  | securityParameterIndex => g.securityparameterindex = f.securityparameterindex
  | typeOfServiceTrafficClass => g.typdeofserviceTrafficclass = f.typdeofserviceTrafficclass
  | flowLabel => g.flowlabel = f.flowlabel

/-- What arrives of the component: the flow label without its last octet, anything else as it is. -/
def Received (f g : FilterContents) : ComponentType → Prop
  | flowLabel => g.flowlabel = (f.flowlabel &&& 0x000fffff) >>> 8
  | c => c.Same f g

theorem ofCode_code (c : ComponentType) : ofCode c.code = some c := by
  cases c <;> rfl

@[simp] theorem decode_flags (bs : List UInt8) (f : FilterContents) (c : ComponentType) :
    (c.decode bs f).flags = f.flags := by
  cases c <;> rfl

theorem received_flags (f g : FilterContents) (flags : UInt16) (c : ComponentType) :
    Received f (g.setFlags flags) c ↔ Received f g c := by
  cases c <;> rfl

theorem decodeU16_beBytes (v : UInt16) (before after : List UInt8) {i : ℕ} (hi : before.length = i) :
    decodeU16 (before ++ beBytes 2 v.toNat ++ after) i = v := by
  subst hi
  have hlen : (beBytes 2 v.toNat).length = 2 := beBytes_length 2 _
  rw [decodeU16, List.append_assoc, List.drop_left, List.take_left' hlen]
  have hv : v.toNat < 256 ^ 2 := v.toNat_lt
  rw [beValue_beBytes hv]
  exact UInt16.ofNat_toNat

theorem decode_other {c c' : ComponentType} (hne : c' ≠ c) (h : Received f g c') :
    Received f (c.decode bs g) c' := by
  cases c <;> cases c' <;> first | exact absurd rfl hne | exact h

theorem decodeU16_port (v : UInt16) : decodeU16 (beBytes 2 v.toNat) 0 = v := by
  have h := decodeU16_beBytes v [] [] (i := 0) rfl
  rwa [List.append_nil] at h

theorem decodeU16_range (r : PortRange) :
    let bs := beBytes 2 r.lowlimit.toNat ++ beBytes 2 r.highlimit.toNat
    PortRange.mk (decodeU16 bs 0) (decodeU16 bs 2) = r := by
  have hlow := decodeU16_beBytes r.lowlimit [] (beBytes 2 r.highlimit.toNat) (i := 0) rfl
  have hhigh := decodeU16_beBytes r.highlimit (beBytes 2 r.lowlimit.toNat) [] (beBytes_length 2 _)
  rw [List.append_nil] at hhigh
  exact congrArg₂ PortRange.mk hlow hhigh

theorem decodeU32_beBytes (v : UInt32) : decodeU32 (beBytes 4 v.toNat) 0 = v := by
  have hlen : (beBytes 4 v.toNat).length = 4 := beBytes_length 4 _
  have hv : v.toNat < 256 ^ 4 := v.toNat_lt
  rw [decodeU32, List.drop_zero, List.take_of_length_le hlen.le, beValue_beBytes hv]
  exact UInt32.ofNat_toNat

/-- The octet that is missing does not count. -/
theorem decodeU24_beBytes (v : UInt32) (b : UInt8) :
    decodeU24 ((beBytes 4 v.toNat).take 3 ++ [b]) 0 = v >>> 8 := by
  have hsplit : beBytes 4 v.toNat = beBytes 3 (v.toNat / 256) ++ [UInt8.ofNat v.toNat] := rfl
  have hlen : (beBytes 3 (v.toNat / 256)).length = 3 := beBytes_length 3 _
  have hv : v.toNat < 4294967296 := v.toNat_lt
  have hdiv : v.toNat / 256 < 256 ^ 3 := by omega
  have hb : b.toNat < 256 := b.toNat_lt
  rw [decodeU24, hsplit, List.take_left' hlen, List.drop_zero,
    List.take_of_length_le (by rw [List.length_append, hlen]; rfl), beValue_append_singleton,
    beValue_beBytes hdiv]
  apply UInt32.toNat_inj.1
  rw [UInt32.toNat_shiftRight, UInt32.toNat_shiftRight, UInt32.toNat_ofNat', Nat.shiftRight_eq_div_pow,
    Nat.shiftRight_eq_div_pow]
  have hshift : (8 : UInt32).toNat % 32 = 8 := rfl
  rw [hshift]
  omega

theorem decodeAddr_ofFn {size : ℕ} (addrs : Fin size → AddrMask) :
    decodeAddr size (List.ofFn (fun j ↦ (addrs j).addr) ++ List.ofFn fun j ↦ (addrs j).mask) = addrs := by
  funext j
  have hlen : (List.ofFn fun j ↦ (addrs j).addr).length = size := List.length_ofFn
  have haddr : ((List.ofFn fun j ↦ (addrs j).addr) ++ List.ofFn fun j ↦ (addrs j).mask)[j.val]? =
      some (addrs j).addr := by
    rw [List.getElem?_append_left (by simp)]
    simp
  simp [decodeAddr, List.getD_eq_getElem?_getD, haddr]

/-- The octets that are read of a component which is no flow label. -/
theorem take_encode {c : ComponentType} (hc : c ≠ flowLabel) (f : FilterContents) :
    (((c.encode f).take c.size) ++ rest).take c.reads = c.encode f := by
  have hsize : c.size = c.reads := by cases c <;> first | rfl | exact absurd rfl hc
  have hlen := encode_length f c
  rw [hsize, List.take_of_length_le hlen.le, List.take_left' hlen]

theorem decode_received (c : ComponentType) (f g : FilterContents) (hrest : rest ≠ []) :
    Received f (c.decode ((((c.encode f).take c.size) ++ rest).take c.reads) g) c := by
  by_cases hc : c = flowLabel
  · subst hc
    obtain ⟨b, rest, rfl⟩ := List.exists_cons_of_ne_nil hrest
    have hlen : ((flowLabel.encode f).take 3).length = 3 := by
      rw [List.length_take, encode_length]
      rfl
    have hread : ((flowLabel.encode f).take 3 ++ b :: rest).take 4 = (flowLabel.encode f).take 3 ++ [b] := by
      rw [List.take_append, hlen, List.take_of_length_le (by omega)]
      rfl
    exact (congrArg (decodeU24 · 0) hread).trans (decodeU24_beBytes _ b)
  · rw [take_encode hc]
    cases c with
    | flowLabel => exact absurd rfl hc
    | ipv4RemoteAddr => exact decodeAddr_ofFn f.ipv4remoteaddr
    | ipv6RemoteAddr => exact decodeAddr_ofFn f.ipv6remoteaddr
    | protocolNextHeader => rfl
    | singleLocalPort => exact decodeU16_port f.singlelocalport
    | localPortRange => exact decodeU16_range f.localportrange
    | singleRemotePort => exact decodeU16_port f.singleremoteport
    | remotePortRange => exact decodeU16_range f.remoteportrange
    | securityParameterIndex => exact decodeU32_beBytes _
    | typeOfServiceTrafficClass => rfl

end ComponentType

/-- The filter that comes out of the loop over the components `cs`. -/
structure ReceivedContents (f : FilterContents) (cs : List ComponentType) (g g' : FilterContents) :
    Prop where
  flags : g'.flags = cs.foldl (fun flags c ↦ flags ||| c.flag) g.flags
  values : ∀ c, c ∈ cs ∨ c.Received f g → c.Received f g'

variable {buffer rest : List UInt8}

theorem decodeContents_components (f : FilterContents) (hrest : rest ≠ []) {pkfstart pkflen : ℕ}
    (cs : List ComponentType) (fuel decoded : ℕ) (g : FilterContents)
    (hdrop : buffer.drop decoded = cs.flatMap (·.written f) ++ rest) (hstart : pkfstart ≤ decoded)
    (hlen : decoded - pkfstart + (cs.flatMap (·.written f)).length = pkflen) (hfuel : cs.length ≤ fuel) :
    ∃ g', decodeContents buffer pkfstart pkflen fuel decoded g =
        .ok (decoded + (cs.flatMap (·.written f)).length, g') ∧ ReceivedContents f cs g g' := by
  induction cs generalizing fuel decoded g with
  | nil =>
    have hdone : ¬decoded - pkfstart < pkflen := by
      rw [List.flatMap_nil, List.length_nil] at hlen
      omega
    refine ⟨g, ?_, rfl, fun c hc ↦ hc.elim (fun h ↦ absurd h List.not_mem_nil) id⟩
    cases fuel with
    | zero => rw [decodeContents, if_neg hdone]; rfl
    | succ fuel => rw [decodeContents, if_neg hdone]; rfl
  | cons c cs ih =>
    obtain ⟨fuel, rfl⟩ : ∃ k, fuel = k + 1 := ⟨fuel - 1, by simp at hfuel; omega⟩
    rw [List.flatMap_cons, List.length_append, c.written_length] at hlen
    rw [List.flatMap_cons, List.append_assoc] at hdrop
    have hloop : decoded - pkfstart < pkflen := by omega
    let after := cs.flatMap (·.written f) ++ rest
    have hafter : after ≠ [] := List.append_ne_nil_of_right_ne_nil _ hrest
    have hvalue : buffer.drop (decoded + 1) = (c.encode f).take c.size ++ after := drop_succ hdrop
    have htake : ((c.encode f).take c.size).length = c.size := by
      have := c.written_length f
      rw [ComponentType.written, List.length_cons] at this
      omega
    have hreads : c.reads ≤ (buffer.drop (decoded + 1)).length := by
      have hpos := List.length_pos_iff.2 hafter
      rw [hvalue, List.length_append, htake]
      cases c <;> simp only [ComponentType.reads, ComponentType.size] <;> omega
    have hnext : buffer.drop (decoded + 1 + c.size) = after := by
      rw [← htake]
      exact drop_add hvalue
    obtain ⟨g', hok, hreceived⟩ := ih fuel (decoded + 1 + c.size)
      (c.decode ((buffer.drop (decoded + 1)).take c.reads) (g.setFlags (g.flags ||| c.flag)))
      hnext (by omega) (by omega) (by simpa using hfuel)
    refine ⟨g', ?_, ?_, fun c' hc' ↦ hreceived.values c' ?_⟩
    · rw [decodeContents, if_pos hloop, octet_of_drop hdrop, ok_bind, ComponentType.ofCode_code]
      dsimp only
      rw [octets_of_le hreads, ok_bind, hok, List.flatMap_cons, List.length_append, c.written_length]
      congr 2
      omega
    · rw [hreceived.flags, ComponentType.decode_flags]
      rfl
    · by_cases hc : c' = c
      · subst hc
        rw [hvalue]
        exact .inr (ComponentType.decode_received c' f _ hafter)
      · refine hc'.imp (fun h ↦ (List.mem_cons.1 h).resolve_left hc) fun h ↦ ?_
        exact ComponentType.decode_other hc ((ComponentType.received_flags f g _ c').2 h)

theorem flag_cases (flags : UInt16) (c : ComponentType) :
    flags &&& c.flag = c.flag ∨ flags &&& c.flag = 0 := by
  have hflag : ∃ i < 16, c.flag.toNat = 2 ^ i := by
    cases c <;> decide
  obtain ⟨i, -, hpow⟩ := hflag
  have hand : (flags &&& c.flag).toNat = (flags.toNat.testBit i).toNat * 2 ^ i := by
    rw [UInt16.toNat_and, hpow, Nat.and_two_pow]
  cases hbit : flags.toNat.testBit i with
  | false =>
    right
    apply UInt16.toNat_inj.1
    rw [hand, hbit]
    simp
  | true =>
    left
    apply UInt16.toNat_inj.1
    rw [hand, hbit, hpow]
    simp

theorem and_or_uint16 (a b c : UInt16) : a &&& (b ||| c) = (a &&& b) ||| (a &&& c) := by
  apply UInt16.toNat_inj.1
  simp only [UInt16.toNat_and, UInt16.toNat_or]
  exact Nat.and_or_distrib_left ..

theorem foldl_flags (flags acc : UInt16) (cs : List ComponentType) :
    (cs.filter fun c ↦ flags &&& c.flag = c.flag).foldl (fun acc c ↦ acc ||| c.flag) acc =
      acc ||| (flags &&& cs.foldr (fun c acc ↦ c.flag ||| acc) 0) := by
  induction cs generalizing acc with
  | nil => simp
  | cons c cs ih =>
    rw [List.foldr_cons, and_or_uint16]
    rcases flag_cases flags c with h | h
    · rw [List.filter_cons_of_pos (by simpa using h), List.foldl_cons, ih, UInt16.or_assoc, h]
    · have hpos : c.flag ≠ 0 := by cases c <;> decide
      rw [List.filter_cons_of_neg (by simpa [h] using hpos.symm), ih, h, UInt16.zero_or]

theorem length_components (f : FilterContents) :
    (f.components.map fun c ↦ 1 + c.size).sum ≤ 72 := by
  have hsub : (f.components.map fun c ↦ 1 + c.size).Sublist
      (ComponentType.all.map fun c ↦ 1 + c.size) := List.filter_sublist.map _
  exact hsub.sum_le_sum (fun _ _ ↦ Nat.zero_le _)

/-- The filter that arrives: every component that is flagged, and no other. -/
structure ReceivedEntry (entry entry' : FilterEntry) : Prop where
  identifier : entry'.identifier = entry.identifier
  direction : entry'.direction = entry.direction
  evalPrecedence : entry'.evalPrecedence = entry.evalPrecedence
  flags : entry'.packetfilter.flags = entry.packetfilter.flags
  values : ∀ c : ComponentType, entry.packetfilter.flags &&& c.flag = c.flag →
    c.Received entry.packetfilter entry'.packetfilter

/-- The flags name component types, and they name one. -/
def KnownFlags (f : FilterContents) : Prop := f.flags ≠ 0 ∧ f.flags &&& 0x3ff = f.flags

theorem components_flags {f : FilterContents} (h : KnownFlags f) :
    f.components.foldl (fun flags c ↦ flags ||| c.flag) 0 = f.flags := by
  have hall : ComponentType.all.foldr (fun c flags ↦ c.flag ||| flags) 0 = 0x3ff := rfl
  rw [FilterContents.components, foldl_flags, hall, h.2, UInt16.zero_or]

theorem length_contents (f : FilterContents) : f.octets.length ≤ 72 := by
  refine Nat.le_trans (Nat.le_of_eq ?_) (length_components f)
  simp [FilterContents.octets, List.length_flatMap]

theorem length_le_written (f : FilterContents) (cs : List ComponentType) :
    cs.length ≤ (cs.flatMap (·.written f)).length := by
  induction cs with
  | nil => exact Nat.zero_le _
  | cons c cs ih =>
    rw [List.flatMap_cons, List.length_append, c.written_length, List.length_cons]
    omega

theorem decode_first (entry : FilterEntry) :
    BitVec.ofNat 4 (entry.first &&& 0x0f).toNat = entry.identifier ∧
      BitVec.ofNat 2 (entry.first >>> 4).toNat = entry.direction := by
  have hall : ∀ (identifier : BitVec 4) (direction : BitVec 2),
      let first := (UInt8.ofNat direction.toNat <<< 4) ||| UInt8.ofNat identifier.toNat
      BitVec.ofNat 4 (first &&& 0x0f).toNat = identifier ∧
        BitVec.ofNat 2 (first >>> 4).toNat = direction := by decide
  exact hall entry.identifier entry.direction

theorem decodeFilter_octets {entry : FilterEntry} (h : KnownFlags entry.packetfilter) (hrest : rest ≠ [])
    (packetfilters : ℕ → FilterEntry) {i decoded : ℕ}
    (hi : i < TRAFFIC_FLOW_TEMPLATE_NB_PACKET_FILTERS_MAX)
    (hdrop : buffer.drop decoded = entry.octets ++ rest) :
    ∃ entry', decodeFilter buffer packetfilters i decoded =
        .ok (decoded + entry.octets.length, update packetfilters i entry') ∧
      ReceivedEntry entry entry' := by
  let f := entry.packetfilter
  have hlen : (UInt8.ofNat f.octets.length).toNat = f.octets.length := by
    have := length_contents f
    rw [UInt8.toNat_ofNat']
    omega
  have hsecond := drop_succ hdrop
  have hthird := drop_succ hsecond
  have hcontents : buffer.drop (decoded + 3) = f.components.flatMap (·.written f) ++ rest :=
    drop_succ hthird
  obtain ⟨g, hok, hg⟩ := decodeContents_components f hrest f.components f.octets.length (decoded + 3)
    ((packetfilters i).packetfilter.setFlags 0) hcontents (Nat.le_refl _)
    (by rw [Nat.sub_self, Nat.zero_add]) (length_le_written f f.components)
  change decodeContents buffer (decoded + 3) f.octets.length f.octets.length (decoded + 3) _ =
    .ok (decoded + 3 + f.octets.length, g) at hok
  obtain ⟨hidentifier, hdirection⟩ := decode_first entry
  refine ⟨⟨BitVec.ofNat 4 (entry.first &&& 0x0f).toNat, BitVec.ofNat 2 (entry.first >>> 4).toNat,
    entry.evalPrecedence, g⟩, ?_, ⟨hidentifier, hdirection, rfl, ?_, fun c hc ↦ hg.values c (.inl ?_)⟩⟩
  · rw [decodeFilter, assign_of_lt hi, ok_bind, octet_of_drop hdrop, ok_bind, octet_of_drop hsecond,
      ok_bind, octet_of_drop hthird, ok_bind, hlen, hok, ok_bind]
    dsimp only
    rw [pure_eq_ok, update_idem]
    refine congrArg Except.ok (Prod.ext ?_ rfl)
    have hsize : entry.octets.length = f.octets.length + 3 := rfl
    rw [hsize]
    omega
  · exact hg.flags.trans (components_flags h)
  · exact List.mem_filter.2 ⟨by cases c <;> decide, by simpa using hc⟩

/-- The loop over the filters, at the filters from `i` on. It refuses them when `extra` octets of the
message are left. -/
theorem decodeFilters_octets {sent : ℕ → FilterEntry} (hrest : rest ≠ []) {len extra : ℕ}
    (hlen : len < 4294967296) (n i decoded : ℕ) (packetfilters : ℕ → FilterEntry)
    (hknown : ∀ j, i ≤ j → j < i + n → KnownFlags (sent j).packetfilter)
    (hi : i + n ≤ TRAFFIC_FLOW_TEMPLATE_NB_PACKET_FILTERS_MAX)
    (hdrop : buffer.drop decoded = (List.range' i n).flatMap (fun j ↦ (sent j).octets) ++ rest)
    (hleft : decoded + ((List.range' i n).flatMap fun j ↦ (sent j).octets).length + extra = len) :
    ∃ received, decodeFilters buffer len n i decoded packetfilters =
        (if extra = 0 then .ok (len, received) else .error (.code TLV_DECODE_VALUE_DOESNT_MATCH)) ∧
      (∀ j, i ≤ j → j < i + n → ReceivedEntry (sent j) (received j)) ∧
      ∀ j < i, received j = packetfilters j := by
  induction n generalizing i decoded packetfilters with
  | zero =>
    rw [List.range'_zero, List.flatMap_nil, List.length_nil] at hleft
    refine ⟨packetfilters, ?_, fun j hj hlt ↦ by omega, fun j _ ↦ rfl⟩
    have hsub : uint32Sub len decoded = extra := by
      rw [uint32Sub_of_le (by omega) hlen]
      omega
    rw [decodeFilters, hsub]
    by_cases hextra : extra = 0
    · subst hextra
      rw [if_neg (by simp), if_pos rfl, pure_eq_ok]
      congr 2
    · rw [if_pos hextra, if_neg hextra, throw_eq_error]
  | succ n ih =>
    rw [List.range'_succ, List.flatMap_cons, List.length_append] at hleft
    rw [List.range'_succ, List.flatMap_cons, List.append_assoc] at hdrop
    have hpos : 0 < (sent i).octets.length := Nat.succ_pos _
    have hgo : ¬uint32Sub len decoded ≤ 0 := by
      rw [uint32Sub_of_le (by omega) hlen]
      omega
    let after := (List.range' (i + 1) n).flatMap (fun j ↦ (sent j).octets) ++ rest
    have hafter : after ≠ [] := List.append_ne_nil_of_right_ne_nil _ hrest
    have hlt : i < TRAFFIC_FLOW_TEMPLATE_NB_PACKET_FILTERS_MAX := by omega
    obtain ⟨entry, hok, hentry⟩ := decodeFilter_octets (hknown i (Nat.le_refl i) (by omega)) hafter
      packetfilters hlt hdrop
    obtain ⟨received, hrun, hreceived, hbefore⟩ := ih (i + 1) (decoded + (sent i).octets.length)
      (update packetfilters i entry) (fun j hj hlt ↦ hknown j (by omega) (by omega)) (by omega)
      (drop_add hdrop) (by omega)
    refine ⟨received, ?_, fun j hj hlt ↦ ?_, fun j hj ↦ ?_⟩
    · rw [decodeFilters, if_neg hgo, hok, ok_bind]
      exact hrun
    · rcases Nat.eq_or_lt_of_le hj with rfl | hj
      · rw [hbefore i (Nat.lt_succ_self i), update_self]
        exact hentry
      · exact hreceived j hj (by omega)
    · rw [hbefore j (by omega), update_of_ne (by omega)]

theorem decodeLength_zero {ielen : UInt8} {len : ℕ} (hpos : 0 < len) (hlen : len < 4294967296)
    (hle : ielen.toNat ≤ len - 1) : decodeLength 0 (ielen :: rest) len = .ok (1, ielen) := by
  have hsub : uint32Sub len 1 = len - 1 := uint32Sub_of_le hpos hlen
  have hfirst : octet (ielen :: rest) 0 = .ok ielen := rfl
  simp [decodeLength, decodeLength.decodeLengthAt, hfirst, hsub, Nat.not_lt.2 hle]

theorem decode_tft_first (tft : TrafficFlowTemplate) :
    BitVec.ofNat 3 ((tft.first >>> 5) &&& 0x7).toNat = tft.tftoperationcode ∧
      BitVec.ofNat 1 ((tft.first >>> 4) &&& 0x1).toNat = tft.ebit ∧
      BitVec.ofNat 4 (tft.first &&& 0xf).toNat = tft.numberofpacketfilters := by
  have hall : ∀ (op : BitVec 3) (ebit : BitVec 1) (n : BitVec 4),
      let first := (UInt8.ofNat op.toNat <<< 5) ||| (UInt8.ofNat ebit.toNat <<< 4) ||| UInt8.ofNat n.toNat
      BitVec.ofNat 3 ((first >>> 5) &&& 0x7).toNat = op ∧
        BitVec.ofNat 1 ((first >>> 4) &&& 0x1).toNat = ebit ∧ BitVec.ofNat 4 (first &&& 0xf).toNat = n := by
    decide
  exact hall tft.tftoperationcode tft.ebit tft.numberofpacketfilters

/-- A template whose operation has packet filters, and the filters themselves. -/
structure FilterTemplate (tft : TrafficFlowTemplate) : Prop where
  operation : hasFilters tft.tftoperationcode = true
  filters_le : tft.numberofpacketfilters.toNat ≤ TRAFFIC_FLOW_TEMPLATE_NB_PACKET_FILTERS_MAX
  known : ∀ i < tft.numberofpacketfilters.toNat, KnownFlags (tft.packetfilters i).packetfilter

structure ReceivedTemplate (tft tft' : TrafficFlowTemplate) : Prop where
  tftoperationcode : tft'.tftoperationcode = tft.tftoperationcode
  ebit : tft'.ebit = tft.ebit
  numberofpacketfilters : tft'.numberofpacketfilters = tft.numberofpacketfilters
  entries : ∀ i < tft.numberofpacketfilters.toNat, ReceivedEntry (tft.packetfilters i) (tft'.packetfilters i)

theorem decodeTrafficFlowTemplate_octets {tft : TrafficFlowTemplate} (h : FilterTemplate tft)
    (old : TrafficFlowTemplate) (hrest : rest ≠ []) (extra : ℕ)
    (hlen : tft.octets.length + extra < 4294967296) :
    ∃ tft', decodeTrafficFlowTemplate 0 (tft.octets ++ rest) (tft.octets.length + extra) old =
        (if extra = 0 then .ok (tft.octets.length, tft')
          else .error (.code TLV_DECODE_VALUE_DOESNT_MATCH)) ∧
      ReceivedTemplate tft tft' := by
  have hsize : tft.octets.length = tft.filters.length + 2 := rfl
  have hcontents : tft.contents.length = tft.filters.length + 1 := rfl
  have hielen : (UInt8.ofNat tft.contents.length).toNat ≤ tft.contents.length := by
    rw [UInt8.toNat_ofNat']
    exact Nat.mod_le _ _
  obtain ⟨hop, hebit, hnumber⟩ := decode_tft_first tft
  have hall : (tft.filters ++ rest).drop 0 = tft.filters ++ rest := rfl
  have hend : 0 + tft.filters.length + extra = tft.filters.length + extra := by omega
  obtain ⟨received, hok, hreceived, -⟩ := decodeFilters_octets hrest (by omega)
    tft.numberofpacketfilters.toNat 0 0 old.packetfilters (fun j _ hj ↦ h.known j (by omega))
    (by have := h.filters_le; omega) hall hend
  have hfirst : octet (tft.octets ++ rest) 1 = .ok tft.first := rfl
  have hdrop : (tft.octets ++ rest).drop 2 = tft.filters ++ rest := rfl
  have hleft : uint32Sub (tft.octets.length + extra) 2 = tft.filters.length + extra := by
    rw [uint32Sub_of_le (by omega) hlen]
    omega
  refine ⟨{ old with
    tftoperationcode := tft.tftoperationcode
    ebit := tft.ebit
    numberofpacketfilters := tft.numberofpacketfilters
    packetfilters := received }, ?_, rfl, rfl, rfl, fun i hi ↦ hreceived i (Nat.zero_le i) (by omega)⟩
  rw [decodeTrafficFlowTemplate]
  change (decodeLength 0 (UInt8.ofNat tft.contents.length :: (tft.contents ++ rest)) _ >>= _) = _
  rw [decodeLength_zero (by omega) hlen (by omega), ok_bind]
  dsimp only
  rw [hfirst, ok_bind, hop, hebit, hnumber, hdrop, hleft]
  rw [if_neg (ne_delete_of_hasFilters h.operation), if_pos h.operation,
    decodeTrafficFlowTemplatePacketFilters, hok]
  by_cases hextra : extra = 0
  · subst hextra
    rw [if_pos rfl, if_pos rfl, ok_bind, hsize, Nat.add_zero, Nat.add_comm]
    rfl
  · rw [if_neg hextra, if_neg hextra, error_bind]

/-- The bit rates that are present arrive, and none else. -/
structure ReceivedQos (qos qos' : EpsQualityOfService) : Prop where
  bitRatesPresent : qos'.bitRatesPresent = qos.bitRatesPresent
  bitRatesExtPresent : qos'.bitRatesExtPresent = qos.bitRatesExtPresent
  qci : qos'.qci = qos.qci
  bitRates : qos.bitRatesPresent = true → qos'.bitRates = qos.bitRates
  bitRatesExt : qos.bitRatesExtPresent = true → qos'.bitRatesExt = qos.bitRatesExt

theorem decodePresentBitRates_octets (present : Bool) (r old : EpsQosBitRates) {decoded : ℕ}
    (hdrop : buffer.drop decoded = presentOctets present r ++ rest) :
    ∃ r', decodePresentBitRates present buffer decoded old =
        .ok (decoded + (presentOctets present r).length, r') ∧ (present = true → r' = r) := by
  cases present with
  | false => exact ⟨old, rfl, nofun⟩
  | true =>
    have hall : (r.octets ++ rest).drop 0 = r.octets ++ rest := rfl
    have hread : OctetReader.octets (buffer.drop decoded) 0 4 = .ok r.octets := by
      rw [hdrop]
      exact octets_of_drop hall
    refine ⟨r, ?_, fun _ ↦ rfl⟩
    rw [decodePresentBitRates, if_pos rfl, decodeEpsQosBitRates, hread]
    rfl

theorem presentOctets_length (present : Bool) (r : EpsQosBitRates) :
    (presentOctets present r).length = if present then 4 else 0 := by
  cases present <;> rfl

theorem decodeEpsQualityOfService_octets {qos : EpsQualityOfService}
    (hext : qos.bitRatesExtPresent = true → qos.bitRatesPresent = true) (old : EpsQualityOfService)
    (rest : List UInt8) {len : ℕ} (hlen : len < 4294967296) (hle : qos.octets.length ≤ len) :
    ∃ qos', decodeEpsQualityOfService 0 (qos.octets ++ rest) len old = .ok (qos.octets.length, qos') ∧
      ReceivedQos qos qos' := by
  let first := presentOctets qos.bitRatesPresent qos.bitRates
  let second := presentOctets qos.bitRatesExtPresent qos.bitRatesExt
  have hdrop : (qos.octets ++ rest).drop 2 = first ++ (second ++ rest) := List.append_assoc _ _ _
  obtain ⟨r, hok, hr⟩ := decodePresentBitRates_octets qos.bitRatesPresent qos.bitRates old.bitRates hdrop
  obtain ⟨r', hok', hr'⟩ := decodePresentBitRates_octets qos.bitRatesExtPresent qos.bitRatesExt
    old.bitRatesExt (drop_add hdrop)
  refine ⟨⟨qos.bitRatesPresent, qos.bitRatesExtPresent, qos.qci, r, r'⟩, ?_, rfl, rfl, rfl, hr, hr'⟩
  have hcontents : qos.contents.length = first.length + second.length + 1 := by
    rw [EpsQualityOfService.contents, List.length_cons, List.length_append]
  have hsize : qos.octets.length = qos.contents.length + 1 := rfl
  have hfirst : first.length = _ := presentOctets_length qos.bitRatesPresent qos.bitRates
  have hsecond : second.length = _ := presentOctets_length qos.bitRatesExtPresent qos.bitRatesExt
  have hielen : (UInt8.ofNat qos.contents.length).toNat = qos.contents.length := by
    rw [UInt8.toNat_ofNat']
    apply Nat.mod_eq_of_lt
    split at hfirst <;> split at hsecond <;> omega
  have hshort : ∀ p e : Bool, (e = true → p = true) →
      decide ((if p then 4 else 0) + (if e then 4 else 0) + 1 > 2) = p ∧
        decide ((if p then 4 else 0) + (if e then 4 else 0) + 1 > 6) = e := by decide
  have hpresent : decide (qos.contents.length > 2 + if (0 : UInt8) > 0 then 1 else 0) =
      qos.bitRatesPresent := by
    rw [hcontents, hfirst, hsecond]
    exact (hshort _ _ hext).1
  have hpresentExt : decide (qos.contents.length > 6 + if (0 : UInt8) > 0 then 1 else 0) =
      qos.bitRatesExtPresent := by
    rw [hcontents, hfirst, hsecond]
    exact (hshort _ _ hext).2
  have hqci : octet (qos.octets ++ rest) 1 = .ok qos.qci := rfl
  rw [decodeEpsQualityOfService]
  change (decodeLength 0 (UInt8.ofNat qos.contents.length :: (qos.contents ++ rest)) _ >>= _) = _
  rw [decodeLength_zero (by omega) hlen (by omega), ok_bind]
  dsimp only
  rw [hqci, ok_bind, hielen, hpresent, hok, ok_bind]
  dsimp only
  rw [hpresentExt, hok', ok_bind]
  refine congrArg Except.ok (Prod.ext ?_ rfl)
  change 2 + first.length + second.length = _
  omega

section Request

variable {ν : Type} {others : OptionalElements ν} {msg old : ActivateDedicatedEpsBearerContextRequest ν}

/-- The content of a request: bit rates, a template with one to four packet filters, and protocol
configuration options or none, within their length octets. -/
structure Encodable (msg : ActivateDedicatedEpsBearerContextRequest ν) : Prop where
  bitRates : msg.epsqos.bitRatesExtPresent = true → msg.epsqos.bitRatesPresent = true
  template : FilterTemplate msg.tft
  filters_pos : 0 < msg.tft.numberofpacketfilters.toNat
  labels : ∀ i < msg.tft.numberofpacketfilters.toNat,
    (msg.tft.packetfilters i).packetfilter.flowlabel.toNat < 2 ^ 20
  presence : msg.presencemask = 0 ∨ msg.presencemask = PROTOCOL_CONFIGURATION_OPTIONS_PRESENT
  containers : msg.pcoPresent = true → msg.protocolconfigurationoptions.numProtocolIdOrContainerId.toNat ≤
    PROTOCOL_CONFIGURATION_OPTIONS_MAXIMUM_PROTOCOL_ID_OR_CONTAINER_ID
  lengths : msg.pcoPresent = true → ∀ i < msg.protocolconfigurationoptions.numProtocolIdOrContainerId.toNat,
    (msg.protocolconfigurationoptions.protocolidcontents i).length =
      (msg.protocolconfigurationoptions.lengthofprotocolid i).toNat
  tft_fits : msg.tft.contents.length < 256
  pco_fits : msg.pcoPresent = true → msg.protocolconfigurationoptions.contents.length < 256

theorem decodeOptional_done {len decoded : ℕ} (h : ¬uint32Sub len decoded > 0) (fuel : ℕ) :
    decodeOptional others buffer len fuel decoded msg = .ok (decoded, msg) := by
  cases fuel with
  | zero => rw [decodeOptional, if_neg h]; rfl
  | succ fuel => rw [decodeOptional, if_neg h]; rfl

theorem decodeRequest_octets (others : OptionalElements ν) (h : Encodable msg) (old : ActivateDedicatedEpsBearerContextRequest ν)
    (hrest : rest ≠ []) (hlen : msg.octets.length < 4294967296) :
    ∃ msg', decodeActivateDedicatedEpsBearerContextRequest others (msg.octets ++ rest) msg.octets.length old =
        (if msg.pcoPresent then .error (.code TLV_DECODE_VALUE_DOESNT_MATCH)
          else .ok (msg.octets.length, msg')) ∧
      msg'.presencemask = old.presencemask ∧ ReceivedQos msg.epsqos msg'.epsqos ∧
        ReceivedTemplate msg.tft msg'.tft := by
  let pco := if msg.pcoPresent then msg.protocolconfigurationoptions.octets else []
  let first := msg.linkedepsbeareridentity &&& 0x0f
  have hoctets : msg.octets = first :: (msg.epsqos.octets ++ (msg.tft.octets ++ pco)) := by
    rw [ActivateDedicatedEpsBearerContextRequest.octets, ActivateDedicatedEpsBearerContextRequest.mandatory,
      List.cons_append, List.append_assoc]
  have hsize : msg.octets.length =
      1 + msg.epsqos.octets.length + msg.tft.octets.length + pco.length := by
    rw [hoctets, List.length_cons, List.length_append, List.length_append]
    omega
  have hqosSize : msg.epsqos.octets.length = msg.epsqos.contents.length + 1 := rfl
  have hqosContents : 0 < msg.epsqos.contents.length := Nat.succ_pos _
  have htftSize : msg.tft.octets.length = msg.tft.filters.length + 2 := rfl
  have hmin : ¬msg.octets.length < ACTIVATE_DEDICATED_EPS_BEARER_CONTEXT_REQUEST_MINIMUM_LENGTH := by
    change ¬_ < 4
    omega
  have hbehindFirst : (msg.octets ++ rest).drop 1 = msg.epsqos.octets ++ (msg.tft.octets ++ (pco ++ rest)) := by
    rw [hoctets, List.cons_append, List.drop_succ_cons, List.drop_zero, List.append_assoc, List.append_assoc]
  have hbehindQos := drop_add hbehindFirst
  have hleftQos : uint32Sub msg.octets.length 1 = msg.octets.length - 1 := uint32Sub_of_le (by omega) hlen
  have hlt : uint32Sub msg.octets.length 1 < 4294967296 := by omega
  have hle : msg.epsqos.octets.length ≤ uint32Sub msg.octets.length 1 := by omega
  have hleftTft : uint32Sub msg.octets.length (1 + msg.epsqos.octets.length) =
      msg.tft.octets.length + pco.length := by
    rw [uint32Sub_of_le (by omega) hlen]
    omega
  obtain ⟨qos, hqos, hreceivedQos⟩ := decodeEpsQualityOfService_octets h.bitRates old.epsqos
    (msg.tft.octets ++ (pco ++ rest)) hlt hle
  have hafter : pco ++ rest ≠ [] := List.append_ne_nil_of_right_ne_nil _ hrest
  obtain ⟨tft, htft, hreceivedTft⟩ :=
    decodeTrafficFlowTemplate_octets h.template old.tft hafter pco.length (by omega)
  have hfirst : octet (msg.octets ++ rest) 0 = .ok first := by
    rw [hoctets]
    rfl
  refine ⟨{ old with linkedepsbeareridentity := first &&& 0xf, epsqos := qos, tft }, ?_, rfl, hreceivedQos,
    hreceivedTft⟩
  rw [decodeActivateDedicatedEpsBearerContextRequest, if_neg hmin, hfirst, ok_bind]
  dsimp only
  rw [hbehindFirst, hqos, ok_bind]
  dsimp only
  rw [hbehindQos, hleftTft, htft]
  cases hpco : msg.pcoPresent with
  | false =>
    have hnil : pco = [] := by simp [pco, hpco]
    have hdone : ¬uint32Sub msg.octets.length (1 + msg.epsqos.octets.length + msg.tft.octets.length) > 0 := by
      rw [uint32Sub_of_le (by omega) hlen, hsize, hnil]
      simp
    rw [hnil, List.length_nil, if_pos rfl, ok_bind]
    dsimp only
    rw [decodeOptional_done hdone]
    refine congrArg Except.ok (Prod.ext ?_ rfl)
    rw [hsize, hnil]
    rfl
  | true =>
    have hpos : pco.length ≠ 0 := by simp [pco, hpco, ProtocolConfigurationOptions.octets]
    rw [if_neg hpos, error_bind]
    rfl

/-- The packet filter that the network sent, with the components that it has. -/
structure SameEntry (entry entry' : FilterEntry) : Prop where
  identifier : entry'.identifier = entry.identifier
  direction : entry'.direction = entry.direction
  evalPrecedence : entry'.evalPrecedence = entry.evalPrecedence
  flags : entry'.packetfilter.flags = entry.packetfilter.flags
  values : ∀ c : ComponentType, entry.packetfilter.flags &&& c.flag = c.flag →
    c.Same entry.packetfilter entry'.packetfilter

structure SameContainers (pco pco' : ProtocolConfigurationOptions) : Prop where
  number : pco'.numProtocolIdOrContainerId = pco.numProtocolIdOrContainerId
  protocolid : ∀ i < pco.numProtocolIdOrContainerId.toNat, pco'.protocolid i = pco.protocolid i
  lengthofprotocolid : ∀ i < pco.numProtocolIdOrContainerId.toNat,
    pco'.lengthofprotocolid i = pco.lengthofprotocolid i
  protocolidcontents : ∀ i < pco.numProtocolIdOrContainerId.toNat,
    pco'.protocolidcontents i = pco.protocolidcontents i

structure SameRequest (msg msg' : ActivateDedicatedEpsBearerContextRequest ν) : Prop where
  epsqos : ReceivedQos msg.epsqos msg'.epsqos
  numberofpacketfilters : msg'.tft.numberofpacketfilters = msg.tft.numberofpacketfilters
  entries : ∀ i < msg.tft.numberofpacketfilters.toNat,
    SameEntry (msg.tft.packetfilters i) (msg'.tft.packetfilters i)
  presencemask : msg'.presencemask = msg.presencemask
  containers : msg.pcoPresent = true →
    SameContainers msg.protocolconfigurationoptions msg'.protocolconfigurationoptions

/-- Decoding what has been encoded to a buffer of `len` octets takes all of it and yields the content. -/
def RoundTrips (others : OptionalElements ν) (msg old : ActivateDedicatedEpsBearerContextRequest ν)
    (mem : ℕ → UInt8) (len : ℕ) : Prop :=
  ∃ mem' n msg', encodeActivateDedicatedEpsBearerContextRequest others msg mem len = .ok (mem', n) ∧
    decodeActivateDedicatedEpsBearerContextRequest others (load mem' 0 len) n old = .ok (n, msg') ∧
      SameRequest msg msg'

/-- No filter has a flow label other than 0. -/
def NoLabel (tft : TrafficFlowTemplate) : Prop :=
  ∀ i < tft.numberofpacketfilters.toNat, (tft.packetfilters i).packetfilter.flags &&&
      ComponentType.flowLabel.flag = ComponentType.flowLabel.flag →
    (tft.packetfilters i).packetfilter.flowlabel = 0

theorem label_iff (v : UInt32) : v = (v &&& 0x000fffff) >>> 8 ↔ v = 0 := by
  constructor
  · intro h
    have hnat := congrArg UInt32.toNat h
    have hand : (v &&& 0x000fffff).toNat ≤ v.toNat := Nat.and_le_left
    have hshift : (8 : UInt32).toNat % 32 = 8 := rfl
    rw [UInt32.toNat_shiftRight, hshift, Nat.shiftRight_eq_div_pow] at hnat
    apply UInt32.toNat_inj.1
    rw [UInt32.toNat_zero]
    omega
  · rintro rfl
    rfl

theorem same_iff (c : ComponentType) {f g : FilterContents} (h : c.Received f g) :
    c.Same f g ↔ c = .flowLabel → f.flowlabel = 0 := by
  cases c with
  | flowLabel =>
    change g.flowlabel = _ at h
    change g.flowlabel = f.flowlabel ↔ _
    rw [h, eq_comm, label_iff]
    exact ⟨fun hzero _ ↦ hzero, fun hzero ↦ hzero rfl⟩
  | _ => exact ⟨fun _ ↦ nofun, fun _ ↦ h⟩

theorem load_of_filled {mem mem' : ℕ → UInt8} {bs : List UInt8} {len : ℕ} (h : Filled mem 0 bs mem')
    (hlt : bs.length < len) : ∃ rest, rest ≠ [] ∧ load mem' 0 len = bs ++ rest := by
  refine ⟨load mem' bs.length (len - bs.length), ?_, ?_⟩
  · intro hnil
    have hlen := congrArg List.length hnil
    rw [load_length, List.length_nil] at hlen
    omega
  · have hload := load_add mem' 0 bs.length (len - bs.length)
    rwa [load_of_stores h.stores, Nat.zero_add, Nat.add_sub_cancel' hlt.le] at hload

theorem sameRequest_iff {msg' : ActivateDedicatedEpsBearerContextRequest ν} (hpco : msg.pcoPresent = false)
    (hmask : msg'.presencemask = msg.presencemask) (hqos : ReceivedQos msg.epsqos msg'.epsqos)
    (htft : ReceivedTemplate msg.tft msg'.tft) : SameRequest msg msg' ↔ NoLabel msg.tft := by
  constructor
  · intro h i hi hflag
    have hsame := (h.entries i hi).values .flowLabel hflag
    exact (same_iff .flowLabel ((htft.entries i hi).values .flowLabel hflag)).1 hsame rfl
  · intro h
    refine ⟨hqos, htft.numberofpacketfilters, fun i hi ↦ ?_, hmask, fun hp ↦ ?_⟩
    · have hentry := htft.entries i hi
      refine ⟨hentry.identifier, hentry.direction, hentry.evalPrecedence, hentry.flags, fun c hc ↦ ?_⟩
      apply (same_iff c (hentry.values c hc)).2
      rintro rfl
      exact h i hi hc
    · rw [hpco] at hp
      exact absurd hp Bool.false_ne_true

/-- What the encoder and the decoder make of a request. -/
theorem request_coded (others : OptionalElements ν) (h : Encodable msg) (mem : ℕ → UInt8) {len : ℕ}
    (hroom : msg.octets.length < len) (hlen : len < 4294967296) (hold : old.presencemask = 0) :
    ∃ mem' msg', encodeActivateDedicatedEpsBearerContextRequest others msg mem len =
        .ok (mem', msg.octets.length) ∧
      decodeActivateDedicatedEpsBearerContextRequest others (load mem' 0 len) msg.octets.length old =
        (if msg.pcoPresent then .error (.code TLV_DECODE_VALUE_DOESNT_MATCH)
          else .ok (msg.octets.length, msg')) ∧
      (msg.pcoPresent = false → (SameRequest msg msg' ↔ NoLabel msg.tft)) := by
  have hothers : ∀ e : OptionalElement, msg.presencemask &&& e.present ≠ e.present := by
    intro e
    rcases h.presence with hmask | hmask <;> rw [hmask] <;> cases e <;> decide
  obtain ⟨mem', hencode, hfilled⟩ :=
    encodeRequest_writes others h.template.operation hothers mem hlen hroom.le
  obtain ⟨rest, hrest, hload⟩ := load_of_filled hfilled hroom
  obtain ⟨msg', hdecode, hmask, hqos, htft⟩ :=
    decodeRequest_octets others h old hrest (by omega)
  refine ⟨mem', msg', hencode, hload ▸ hdecode, fun hpco ↦ sameRequest_iff hpco ?_ hqos htft⟩
  rw [hmask, hold]
  rcases h.presence with hnone | hsome
  · exact hnone.symm
  · rw [ActivateDedicatedEpsBearerContextRequest.pcoPresent, hsome] at hpco
    exact absurd hpco (by decide)

theorem not_roundTrips_of_pco (others : OptionalElements ν) (h : Encodable msg) (mem : ℕ → UInt8) {len : ℕ}
    (hroom : msg.octets.length < len) (hlen : len < 4294967296) (hold : old.presencemask = 0)
    (hpco : msg.pcoPresent = true) : ¬RoundTrips others msg old mem len := by
  obtain ⟨mem', msg', hencode, hdecode, -⟩ := request_coded others h mem hroom hlen hold
  intro hround
  obtain ⟨mem'', n, msg'', hencode', hdecode', -⟩ := hround
  obtain ⟨rfl, rfl⟩ := Prod.mk.inj (Except.ok.inj (hencode.symm.trans hencode'))
  rw [hdecode, if_pos hpco] at hdecode'
  exact nomatch hdecode'

theorem roundTrips_iff_noLabel (others : OptionalElements ν) (h : Encodable msg) (mem : ℕ → UInt8) {len : ℕ}
    (hroom : msg.octets.length < len) (hlen : len < 4294967296) (hold : old.presencemask = 0)
    (hpco : msg.pcoPresent = false) : RoundTrips others msg old mem len ↔ NoLabel msg.tft := by
  obtain ⟨mem', msg', hencode, hdecode, hsame⟩ := request_coded others h mem hroom hlen hold
  rw [if_neg (hpco ▸ Bool.false_ne_true)] at hdecode
  rw [← hsame hpco]
  constructor
  · intro hround
    obtain ⟨mem'', n, msg'', hencode', hdecode', hsame'⟩ := hround
    obtain ⟨rfl, rfl⟩ := Prod.mk.inj (Except.ok.inj (hencode.symm.trans hencode'))
    obtain ⟨-, rfl⟩ := Prod.mk.inj (Except.ok.inj (hdecode.symm.trans hdecode'))
    exact hsame'
  · intro hsame'
    exact ⟨mem', _, msg', hencode, hdecode, hsame'⟩

/-- The buffer is longer than the message, because `ENCODE_U24` and `DECODE_U24` go an octet too far. -/
theorem roundTrips_iff (others : OptionalElements ν) (h : Encodable msg) (mem : ℕ → UInt8) {len : ℕ}
    (hroom : msg.octets.length < len) (hlen : len < 4294967296) (hold : old.presencemask = 0) :
    RoundTrips others msg old mem len ↔ msg.presencemask = 0 ∧ NoLabel msg.tft := by
  rcases h.presence with hnone | hsome
  · have hpco : msg.pcoPresent = false := by
      rw [ActivateDedicatedEpsBearerContextRequest.pcoPresent, hnone]
      rfl
    rw [roundTrips_iff_noLabel others h mem hroom hlen hold hpco]
    exact (and_iff_right hnone).symm
  · have hpco : msg.pcoPresent = true := by
      rw [ActivateDedicatedEpsBearerContextRequest.pcoPresent, hsome]
      rfl
    refine iff_of_false (not_roundTrips_of_pco others h mem hroom hlen hold hpco) fun hnone ↦ ?_
    rw [hsome] at hnone
    exact absurd hnone.1 (by decide)

end Request

/-- The other optional elements are not there. -/
def noElements : OptionalElements Unit where
  decode _ _ _ := .error (.code TLV_DECODE_UNEXPECTED_IEI)
  encode _ _ mem _ _ := .ok (mem, 0)

def someFilter (flags : UInt16) (flowlabel : UInt32) : FilterEntry where
  identifier := 3
  direction := 2
  evalPrecedence := 99
  packetfilter :=
    { flags
      ipv4remoteaddr := fun j ↦ ⟨UInt8.ofNat (10 + j), 255⟩
      ipv6remoteaddr := fun j ↦ ⟨UInt8.ofNat (32 + j), 255⟩
      protocolidentifierNextheader := 17
      singlelocalport := 5060
      localportrange := ⟨1024, 2048⟩
      singleremoteport := 80
      remoteportrange := ⟨4096, 8192⟩
      securityparameterindex := 0xdeadbeef
      typdeofserviceTrafficclass := ⟨8, 252⟩
      flowlabel }

/-- A request with one filter. -/
def someRequest (flags : UInt16) (flowlabel presencemask : UInt32) :
    ActivateDedicatedEpsBearerContextRequest Unit where
  linkedepsbeareridentity := 5
  epsqos := ⟨true, false, 9, ⟨1, 2, 3, 4⟩, ⟨0, 0, 0, 0⟩⟩
  tft := ⟨TRAFFIC_FLOW_TEMPLATE_OPCODE_CREATE, 0, 1, fun _ ↦ someFilter flags flowlabel, fun _ ↦ 0⟩
  presencemask := presencemask
  other := fun _ ↦ ()
  protocolconfigurationoptions := ⟨0, 0, fun _ ↦ 0, fun _ ↦ 0, fun _ ↦ []⟩

theorem someRequest_encodable {flags : UInt16} {flowlabel presencemask : UInt32}
    (hflags : flags ≠ 0 ∧ flags &&& 0x3ff = flags) (hlabel : flowlabel.toNat < 2 ^ 20)
    (hmask : presencemask = 0 ∨ presencemask = PROTOCOL_CONFIGURATION_OPTIONS_PRESENT) :
    Encodable (someRequest flags flowlabel presencemask) where
  bitRates := nofun
  template := ⟨rfl, by change (1 : BitVec 4).toNat ≤ 4; decide, fun _ _ ↦ hflags⟩
  filters_pos := Nat.one_pos
  labels _ _ := hlabel
  presence := hmask
  containers _ := Nat.zero_le _
  lengths _ _ hi := absurd hi (Nat.not_lt_zero _)
  tft_fits := by
    have hfilter := length_contents (someFilter flags flowlabel).packetfilter
    have hentry : (someFilter flags flowlabel).octets.length =
        (someFilter flags flowlabel).packetfilter.octets.length + 3 := rfl
    change ((someFilter flags flowlabel).octets ++ []).length + 1 < 256
    rw [List.append_nil, hentry]
    omega
  pco_fits _ := by
    change 1 < 256
    decide

theorem voiceRequest_roundTrips :
    RoundTrips noElements (someRequest 0x1ff 0 0) (someRequest 0 0 0) (fun _ ↦ 0) 128 := by
  have hencodable : Encodable (someRequest 0x1ff 0 0) :=
    someRequest_encodable ⟨by decide, by decide⟩ (by decide) (.inl rfl)
  refine (roundTrips_iff noElements hencodable (fun _ ↦ 0) (by decide) (by decide) rfl).2 ⟨rfl, ?_⟩
  exact fun _ _ _ ↦ rfl

/-- A flow label comes back without its last octet, and a request with protocol configuration options
behind the template is refused. -/
theorem not_roundTrips_someRequest :
    (Encodable (someRequest 0x200 0x12345 0) ∧
      ¬RoundTrips noElements (someRequest 0x200 0x12345 0) (someRequest 0 0 0) (fun _ ↦ 0) 128) ∧
    Encodable (someRequest 0x004 0 PROTOCOL_CONFIGURATION_OPTIONS_PRESENT) ∧
      ¬RoundTrips noElements (someRequest 0x004 0 PROTOCOL_CONFIGURATION_OPTIONS_PRESENT)
        (someRequest 0 0 0) (fun _ ↦ 0) 128 := by
  have hlabel : Encodable (someRequest 0x200 0x12345 0) :=
    someRequest_encodable ⟨by decide, by decide⟩ (by decide) (.inl rfl)
  have hpco : Encodable (someRequest 0x004 0 PROTOCOL_CONFIGURATION_OPTIONS_PRESENT) :=
    someRequest_encodable ⟨by decide, by decide⟩ (by decide) (.inr rfl)
  refine ⟨⟨hlabel, fun hround ↦ ?_⟩, hpco, ?_⟩
  · have hno := (roundTrips_iff_noLabel noElements hlabel (fun _ ↦ 0) (by decide) (by decide) rfl
      rfl).1 hround
    exact absurd (hno 0 Nat.one_pos rfl) (by decide)
  · exact not_roundTrips_of_pco noElements hpco (fun _ ↦ 0) (by decide) (by decide) rfl rfl

end EdgeSlice.Nas
