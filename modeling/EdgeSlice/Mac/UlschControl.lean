import EdgeSlice.Mac.UlschHeader
import Mathlib.Data.List.Forall2
import Mathlib.Data.Nat.Bitwise

namespace EdgeSlice.Mac

open Function ByteMemory Chain

theorem and_shiftRight (x i j : ℕ) : (x &&& ((2 ^ j - 1) <<< i)) >>> i = x / 2 ^ i % 2 ^ j := by
  rw [Nat.shiftRight_and_distrib, Nat.shiftLeft_shiftRight, Nat.and_two_pow_sub_one_eq_mod,
    Nat.shiftRight_eq_div_pow]

theorem shiftLeft_or {x y i : ℕ} (h : y < 2 ^ i) : x <<< i ||| y = x * 2 ^ i + y := by
  rw [← Nat.shiftLeft_add_eq_or_of_lt h, Nat.shiftLeft_eq]

theorem and_low (x j : ℕ) : x &&& (2 ^ j - 1) = x % 2 ^ j := Nat.and_two_pow_sub_one_eq_mod x j

theorem powerHeadroom_read {mem : ℕ → ℕ} {p : ℕ} (c : PowerHeadroomCmd)
    (h : Stores mem p c.octets) :
    readCe mem p powerHeadroomLcid =
      (some (.powerHeadroom (c.ph.val - phrMappingOffset)), p + c.octets.length) := by
  have hlow := and_low (c.ph.val + 64 * c.r.val) 6
  have hph := c.ph.isLt
  have hread : mem p &&& 0x3f = c.ph.val := by
    rw [h.1]
    apply hlow.trans
    omega
  simp [readCe, hread, PowerHeadroomCmd.octets]

/-- The receiver swaps the two octets of a C-RNTI. -/
theorem crnti_read {mem : ℕ → ℕ} {p : ℕ} (c : Fin 65536) (h : Stores mem p (crntiOctets c)) :
    readCe mem p crntiLcid =
      (some (.crnti (c.val % 256 * 256 + c.val / 256)), p + (crntiOctets c).length) := by
  obtain ⟨hlow, hhigh, -⟩ := h
  simp [readCe, hlow, hhigh, crntiOctets, Nat.shiftLeft_eq, crntiLcid, powerHeadroomLcid]

theorem shortBsr_read {mem : ℕ → ℕ} {p lcid : ℕ} (hlcid : lcid = truncatedBsrLcid ∨ lcid = shortBsrLcid)
    (b : BsrShort) (h : Stores mem p b.octets) :
    readCe mem p lcid =
      (some (.shortBsr b.lcgid.val b.bufferSize.val), p + b.octets.length) := by
  have hlow := and_low (b.bufferSize.val + 64 * b.lcgid.val) 6
  have hsize := b.bufferSize.isLt
  have hread : mem p &&& 0x3f = b.bufferSize.val := by
    rw [h.1]
    apply hlow.trans
    omega
  have hgroup : mem p >>> 6 = b.lcgid.val := by
    rw [h.1, Nat.shiftRight_eq_div_pow]
    omega
  have h₁ : lcid ≠ powerHeadroomLcid := by rcases hlcid with rfl | rfl <;> decide
  have h₂ : lcid ≠ crntiLcid := by rcases hlcid with rfl | rfl <;> decide
  simp [readCe, hread, hgroup, BsrShort.octets, h₁, h₂, hlcid]

def BsrLong.third (b : BsrLong) : ℕ :=
  (b.bufferSize2.val &&& 0x03) <<< 2 ||| (b.bufferSize3.val &&& 0x3F)

theorem BsrLong.third_lt (b : BsrLong) : b.third < 64 := by
  have h₂ : (b.bufferSize2.val &&& 0x03) <<< 2 < 2 ^ 6 := by
    have hlow : b.bufferSize2.val &&& 0x03 = b.bufferSize2.val % 4 := and_low b.bufferSize2.val 2
    rw [Nat.shiftLeft_eq, hlow]
    omega
  have h₃ : b.bufferSize3.val &&& 0x3F < 2 ^ 6 := by
    have hlow : b.bufferSize3.val &&& 0x3F = b.bufferSize3.val % 64 := and_low b.bufferSize3.val 6
    omega
  exact Nat.or_lt_two_pow h₂ h₃

/-- The receiver loses the low bits of the third size and can change the fourth. -/
theorem longBsr_read {mem : ℕ → ℕ} {p : ℕ} (b : BsrLong) (h : Stores mem p b.octets) :
    readCe mem p longBsrLcid =
      (some (.longBsr b.bufferSize0.val b.bufferSize1.val (b.bufferSize2.val / 4 * 4) b.third),
        p + b.octets.length) := by
  obtain ⟨h₀, h₁, h₂, -⟩ := h
  have hb₀ := b.bufferSize0.isLt
  have hb₁ := b.bufferSize1.isLt
  have hb₂ := b.bufferSize2.isLt
  have hfirst : mem p = b.bufferSize0.val * 4 + b.bufferSize1.val / 16 := by
    have hhigh := and_shiftRight b.bufferSize1.val 4 2
    have hor := shiftLeft_or (x := b.bufferSize0.val) (y := b.bufferSize1.val / 16) (i := 2)
      (by omega)
    refine h₀.trans ((congrArg (fun y ↦ b.bufferSize0.val <<< 2 ||| y) (hhigh.trans ?_)).trans hor)
    omega
  have hsecond : mem (p + 1) = b.bufferSize1.val % 16 * 16 + b.bufferSize2.val / 4 := by
    have hlow := and_low b.bufferSize1.val 4
    have hhigh := and_shiftRight b.bufferSize2.val 2 4
    have hor := shiftLeft_or (x := b.bufferSize1.val % 16) (y := b.bufferSize2.val / 4) (i := 4)
      (by omega)
    refine h₁.trans ((congrArg₂ (fun x y ↦ x <<< 4 ||| y) hlow (hhigh.trans ?_)).trans hor)
    omega
  have hthird : mem (p + 1 + 1) = b.third := h₂
  have hlt := b.third_lt
  have r₀ : (mem p &&& 0xFC) >>> 2 = b.bufferSize0.val := by
    apply (and_shiftRight (mem p) 2 6).trans
    omega
  have r₁ : (mem p &&& 0x03) <<< 4 ||| (mem (p + 1) &&& 0xF0) >>> 4 = b.bufferSize1.val := by
    have hor := shiftLeft_or (x := mem p % 4) (y := mem (p + 1) / 16 % 16) (i := 4) (by omega)
    refine (congrArg₂ (fun x y ↦ x <<< 4 ||| y) (and_low (mem p) 2)
      (and_shiftRight (mem (p + 1)) 4 4)).trans (hor.trans ?_)
    omega
  have r₂ : (mem (p + 1) &&& 0x0F) <<< 2 ||| (mem (p + 1 + 1) &&& 0xC0) >>> 6 =
      b.bufferSize2.val / 4 * 4 := by
    have hor := shiftLeft_or (x := mem (p + 1) % 16) (y := mem (p + 1 + 1) / 64 % 4) (i := 2)
      (by omega)
    refine (congrArg₂ (fun x y ↦ x <<< 2 ||| y) (and_low (mem (p + 1)) 4)
      (and_shiftRight (mem (p + 1 + 1)) 6 2)).trans (hor.trans ?_)
    omega
  have r₃ : mem (p + 1 + 1) &&& 0x3F = b.third := by
    apply (and_low (mem (p + 1 + 1)) 6).trans
    omega
  unfold readCe
  rw [if_neg (by decide), if_neg (by decide), if_neg (by decide), if_pos rfl, r₀, r₁, r₂, r₃]
  rfl

/-- The receiver decodes the stored element `e` as `ce`. -/
def ReadsAs (e : ℕ × List ℕ) (ce : UlschCe) : Prop :=
  ∀ mem p, Stores mem p e.2 → readCe mem p e.1 = (some ce, p + e.2.length)

theorem readCes_stored {mem : ℕ → ℕ} {es : List (ℕ × List ℕ)} {ces : List UlschCe}
    (h : List.Forall₂ ReadsAs es ces) {p : ℕ} (hmem : Stores mem p (es.flatMap Prod.snd)) :
    readCes mem (es.map Prod.fst) p = ces := by
  induction h generalizing p with
  | nil => rfl
  | cons hread _ ih =>
    obtain ⟨hfirst, hrest⟩ := stores_append.mp hmem
    rw [List.map_cons, readCes, hread mem p hfirst]
    exact congrArg _ (ih hrest)

theorem forall₂_toList {α β γ : Type*} {R : β → γ → Prop} (o : Option α) {f : α → β} {g : α → γ}
    (h : ∀ a, R (f a) (g a)) : List.Forall₂ R (o.map f).toList (o.map g).toList := by
  cases o with
  | none => exact .nil
  | some a => exact .cons (h a) .nil

/-- The values the UE puts in a buffer status report. -/
def sentBsr (truncatedBsr shortBsr : Option BsrShort) (longBsr : Option BsrLong) :
    Option UlschCe :=
  match truncatedBsr, shortBsr, longBsr with
  | some b, _, _ => some (.shortBsr b.lcgid.val b.bufferSize.val)
  | none, some b, _ => some (.shortBsr b.lcgid.val b.bufferSize.val)
  | none, none, some b => some (.longBsr b.bufferSize0.val b.bufferSize1.val b.bufferSize2.val
      b.bufferSize3.val)
  | none, none, none => none

def receivedBsr (truncatedBsr shortBsr : Option BsrShort) (longBsr : Option BsrLong) :
    Option UlschCe :=
  match truncatedBsr, shortBsr, longBsr with
  | some b, _, _ => some (.shortBsr b.lcgid.val b.bufferSize.val)
  | none, some b, _ => some (.shortBsr b.lcgid.val b.bufferSize.val)
  | none, none, some b => some (.longBsr b.bufferSize0.val b.bufferSize1.val
      (b.bufferSize2.val / 4 * 4) b.third)
  | none, none, none => none

def sentCes (powerHeadroom : Option PowerHeadroomCmd) (crnti : Option (Fin 65536))
    (truncatedBsr shortBsr : Option BsrShort) (longBsr : Option BsrLong) : List UlschCe :=
  (powerHeadroom.map (fun p ↦ .powerHeadroom (p.ph.val - phrMappingOffset))).toList ++
    (crnti.map (fun c ↦ .crnti c.val)).toList ++ (sentBsr truncatedBsr shortBsr longBsr).toList

def receivedCes (powerHeadroom : Option PowerHeadroomCmd) (crnti : Option (Fin 65536))
    (truncatedBsr shortBsr : Option BsrShort) (longBsr : Option BsrLong) : List UlschCe :=
  (powerHeadroom.map (fun p ↦ .powerHeadroom (p.ph.val - phrMappingOffset))).toList ++
    (crnti.map (fun c ↦ .crnti (c.val % 256 * 256 + c.val / 256))).toList ++
    (receivedBsr truncatedBsr shortBsr longBsr).toList

section

variable {powerHeadroom : Option PowerHeadroomCmd} {crnti : Option (Fin 65536)}
  {truncatedBsr shortBsr : Option BsrShort} {longBsr : Option BsrLong}

theorem bsrElement_readsAs : List.Forall₂ ReadsAs
    (bsrElement truncatedBsr shortBsr longBsr).toList
    (receivedBsr truncatedBsr shortBsr longBsr).toList := by
  cases truncatedBsr with
  | some b => exact .cons (fun _ _ h ↦ shortBsr_read (.inl rfl) b h) .nil
  | none =>
    cases shortBsr with
    | some b => exact .cons (fun _ _ h ↦ shortBsr_read (.inr rfl) b h) .nil
    | none =>
      cases longBsr with
      | none => exact .nil
      | some b => exact .cons (fun _ _ h ↦ longBsr_read b h) .nil

theorem ulschElements_readsAs : List.Forall₂ ReadsAs
    (ulschElements powerHeadroom crnti truncatedBsr shortBsr longBsr)
    (receivedCes powerHeadroom crnti truncatedBsr shortBsr longBsr) :=
  List.rel_append (List.rel_append
    (forall₂_toList powerHeadroom (fun c _ _ h ↦ powerHeadroom_read c h))
    (forall₂_toList crnti (fun c _ _ h ↦ crnti_read c h))) bsrElement_readsAs

theorem receivedBsr_eq_iff : receivedBsr truncatedBsr shortBsr longBsr =
    sentBsr truncatedBsr shortBsr longBsr ↔
    (truncatedBsr = none → shortBsr = none → ∀ b, longBsr = some b →
      b.bufferSize2.val % 4 = 0) := by
  cases truncatedBsr with
  | some b => simp [receivedBsr, sentBsr]
  | none =>
    cases shortBsr with
    | some b => simp [receivedBsr, sentBsr]
    | none =>
      cases longBsr with
      | none => simp [receivedBsr, sentBsr]
      | some b =>
        have hthird : b.bufferSize2.val % 4 = 0 → b.third = b.bufferSize3.val := by
          intro h
          have hlow : b.bufferSize2.val &&& 0x03 = b.bufferSize2.val % 4 :=
            and_low b.bufferSize2.val 2
          have hsize := and_low b.bufferSize3.val 6
          have hlt := b.bufferSize3.isLt
          rw [BsrLong.third, hlow, h, Nat.zero_shiftLeft, Nat.zero_or]
          apply hsize.trans
          omega
        simp only [receivedBsr, sentBsr, Option.some.injEq, UlschCe.longBsr.injEq, true_and,
          forall_const, forall_eq']
        exact ⟨fun h ↦ by omega, fun h ↦ ⟨by omega, hthird h⟩⟩

theorem receivedCes_eq_iff : receivedCes powerHeadroom crnti truncatedBsr shortBsr longBsr =
    sentCes powerHeadroom crnti truncatedBsr shortBsr longBsr ↔
    (∀ c, crnti = some c → c.val / 256 = c.val % 256) ∧
    (truncatedBsr = none → shortBsr = none → ∀ b, longBsr = some b →
      b.bufferSize2.val % 4 = 0) := by
  have hcrnti : (crnti.map (fun c ↦ UlschCe.crnti (c.val % 256 * 256 + c.val / 256))).toList =
      (crnti.map (fun c ↦ UlschCe.crnti c.val)).toList ↔
      ∀ c, crnti = some c → c.val / 256 = c.val % 256 := by
    cases crnti with
    | none => simp
    | some c =>
      simp only [Option.map_some, Option.toList_some, List.cons.injEq, UlschCe.crnti.injEq,
        and_true, Option.some.injEq, forall_eq']
      omega
  have hlength : (crnti.map (fun c ↦ UlschCe.crnti (c.val % 256 * 256 + c.val / 256))).toList.length =
      (crnti.map (fun c ↦ UlschCe.crnti c.val)).toList.length := by
    cases crnti <;> rfl
  have hbsr : (receivedBsr truncatedBsr shortBsr longBsr).toList =
      (sentBsr truncatedBsr shortBsr longBsr).toList ↔
      receivedBsr truncatedBsr shortBsr longBsr = sentBsr truncatedBsr shortBsr longBsr := by
    cases receivedBsr truncatedBsr shortBsr longBsr <;>
      cases sentBsr truncatedBsr shortBsr longBsr <;> simp
  rw [← hcrnti, ← receivedBsr_eq_iff, ← hbsr, receivedCes, sentCes, List.append_assoc,
    List.append_assoc, List.append_right_inj]
  exact ⟨fun h ↦ List.append_inj h hlength, fun h ↦ by rw [h.1, h.2]⟩

theorem ulschElements_lcid : ∀ c ∈ (ulschElements powerHeadroom crnti truncatedBsr shortBsr
    longBsr).map Prod.fst, c = powerHeadroomLcid ∨ c = crntiLcid ∨ c = truncatedBsrLcid ∨
      c = shortBsrLcid ∨ c = longBsrLcid := by
  cases powerHeadroom <;> cases crnti <;> cases truncatedBsr <;> cases shortBsr <;>
    cases longBsr <;> simp [ulschElements, bsrElement]

theorem ulschElements_length :
    (ulschElements powerHeadroom crnti truncatedBsr shortBsr longBsr).length ≤ 3 ∧
    ((ulschElements powerHeadroom crnti truncatedBsr shortBsr longBsr).flatMap Prod.snd).length
      ≤ 6 := by
  cases powerHeadroom <;> cases crnti <;> cases truncatedBsr <;> cases shortBsr <;>
    cases longBsr <;> simp [ulschElements, bsrElement, PowerHeadroomCmd.octets, crntiOctets,
      BsrShort.octets, BsrLong.octets]

theorem ulschElements_payload :
    (((ulschElements powerHeadroom crnti truncatedBsr shortBsr longBsr).map Prod.fst).map
      ulCeLength).sum =
    ((ulschElements powerHeadroom crnti truncatedBsr shortBsr longBsr).flatMap Prod.snd).length := by
  cases powerHeadroom <;> cases crnti <;> cases truncatedBsr <;> cases shortBsr <;>
    cases longBsr <;> simp [ulschElements, bsrElement, PowerHeadroomCmd.octets, crntiOctets,
      BsrShort.octets, BsrLong.octets, ulCeLength, powerHeadroomLcid, crntiLcid, truncatedBsrLcid,
      shortBsrLcid, longBsrLcid]

variable {sdus : List (ℕ × ℕ)} {shortPadding postPadding : ℕ}

variable (truncatedBsr shortBsr longBsr) in
theorem ulsch_accepted (hfew : sdus.length ≤ nbRbMax)
    (hne : headerItems (HeaderState.padCount shortPadding)
      ((ulschElements powerHeadroom crnti truncatedBsr shortBsr longBsr).map Prod.fst) sdus
      postPadding ≠ []) :
    Accepted ulControl ulCeLength (HeaderState.padCount shortPadding)
      ((ulschElements powerHeadroom crnti truncatedBsr shortBsr longBsr).map Prod.fst) sdus
      postPadding := by
  refine ⟨hne, ?_, ?_, hfew, ?_⟩
  · intro c hc
    rcases ulschElements_lcid c hc with rfl | rfl | rfl | rfl | rfl <;> decide
  · rw [List.length_map]
    exact ulschElements_length.1.trans (by decide)
  · intro before lcid more hsub _
    rcases ulschElements_lcid lcid (hsub.subset (by simp)) with rfl | rfl | rfl | rfl | rfl <;>
      rfl

variable (powerHeadroom crnti truncatedBsr shortBsr longBsr) in
theorem ulschOctets_length (hfew : sdus.length ≤ nbRbMax) :
    (ulschOctets shortPadding sdus (ulschElements powerHeadroom crnti truncatedBsr shortBsr longBsr)
      postPadding).length < 256 := by
  set ces := ulschElements powerHeadroom crnti truncatedBsr shortBsr longBsr with hces
  obtain ⟨hcount, hpayload⟩ : ces.length ≤ 3 ∧ (ces.flatMap Prod.snd).length ≤ 6 :=
    ulschElements_length
  have hitems := headerItems_length_le shortPadding (ces.map Prod.fst) sdus postPadding
  have hchain := Subheader.chain_length_le
    (headerItems (HeaderState.padCount shortPadding) (ces.map Prod.fst) sdus postPadding)
  unfold nbRbMax at hfew
  rw [List.length_map] at hitems
  rw [ulschOctets, List.length_append]
  omega

theorem rxControlElements_received (buf : ℕ → ℕ) (sdus : List (ℕ × ℕ))
    (hlcid : ∀ sdu ∈ sdus, sdu.1 < extendedPowerHeadroom) (hfew : sdus.length ≤ nbRbMax)
    (hpad : shortPadding = 0 ∨ postPadding = 0)
    (hne : headerItems (HeaderState.padCount shortPadding)
      ((ulschElements powerHeadroom crnti truncatedBsr shortBsr longBsr).map Prod.fst) sdus
      postPadding ≠ [])
    {mem : ℕ → ℕ} {block rest : List ℕ}
    (hblock : block = load (generateUlschHeader buf shortPadding sdus powerHeadroom crnti
        truncatedBsr shortBsr longBsr postPadding).1 0
        (generateUlschHeader buf shortPadding sdus powerHeadroom crnti
        truncatedBsr shortBsr longBsr postPadding).2 ++ rest)
    (hmem : Stores mem 0 block) :
    rxControlElements mem block.length =
      .ok (receivedCes powerHeadroom crnti truncatedBsr shortBsr longBsr) := by
  obtain ⟨hstored, hoffset⟩ := generateUlschHeader_spec buf shortPadding sdus powerHeadroom crnti
    truncatedBsr shortBsr longBsr postPadding hpad hne
  rw [uint8_of_lt (ulschOctets_length powerHeadroom crnti truncatedBsr shortBsr longBsr hfew)]
    at hoffset
  rw [hoffset, load_of_stores hstored] at hblock
  subst hblock
  obtain ⟨hheader, -⟩ := stores_append.mp hmem
  obtain ⟨hsubheaders, hpayload⟩ := stores_append.mp hheader
  rw [Nat.zero_add] at hpayload
  have hces : ∀ c ∈ (ulschElements powerHeadroom crnti truncatedBsr shortBsr longBsr).map Prod.fst,
      extendedPowerHeadroom ≤ c ∧ c < 32 := by
    intro c hc
    rcases ulschElements_lcid c hc with rfl | rfl | rfl | rfl | rfl <;> decide
  have hparse := parseSubheaders_found (by decide)
    (ulsch_accepted truncatedBsr shortBsr longBsr hfew hne) hces hlcid
    (ulschOctets shortPadding sdus (ulschElements powerHeadroom crnti truncatedBsr shortBsr longBsr)
      postPadding ++ rest).length hsubheaders (by
        simp only [ulschOctets, List.length_append]
        omega)
  simp only [rxControlElements, parseUlschHeader, hparse, ParseState.found]
  rw [readCes_stored ulschElements_readsAs hpayload]

/-- The state of the eNB after a block is the one that the values decoded from it
lead to. -/
theorem rxSduControl_received (findUeId : ℕ → Option ℕ) (s : RxState) (buf : ℕ → ℕ)
    (sdus : List (ℕ × ℕ)) (hlcid : ∀ sdu ∈ sdus, sdu.1 < extendedPowerHeadroom)
    (hfew : sdus.length ≤ nbRbMax) (hpad : shortPadding = 0 ∨ postPadding = 0)
    (hne : headerItems (HeaderState.padCount shortPadding)
      ((ulschElements powerHeadroom crnti truncatedBsr shortBsr longBsr).map Prod.fst) sdus
      postPadding ≠ [])
    {mem : ℕ → ℕ} {block rest : List ℕ}
    (hblock : block = load (generateUlschHeader buf shortPadding sdus powerHeadroom crnti
        truncatedBsr shortBsr longBsr postPadding).1 0
        (generateUlschHeader buf shortPadding sdus powerHeadroom crnti
        truncatedBsr shortBsr longBsr postPadding).2 ++ rest)
    (hmem : Stores mem 0 block) :
    rxSduControl findUeId s mem block.length =
      .ok ((receivedCes powerHeadroom crnti truncatedBsr shortBsr longBsr).foldl
        (RxState.apply findUeId) s) := by
  rw [rxSduControl, rxControlElements_received buf sdus hlcid hfew hpad hne hblock hmem]

end

section

variable {findUeId : ℕ → Option ℕ} {s : RxState} {v : ℕ}

theorem RxState.apply_frame (ce : UlschCe) (hv : s.ueId ≠ some v)
    (hce : ∀ rnti, ce = .crnti rnti → findUeId rnti ≠ some v) :
    (s.apply findUeId ce).ueId ≠ some v ∧ (s.apply findUeId ce).phrInfo v = s.phrInfo v ∧
      (s.apply findUeId ce).bsrInfo v = s.bsrInfo v := by
  cases hue : s.ueId with
  | none =>
    cases ce with
    | crnti rnti => exact ⟨hce rnti rfl, rfl, rfl⟩
    | powerHeadroom phr => simp [RxState.apply, hue]
    | shortBsr lcgid size => simp [RxState.apply, hue]
    | longBsr b₀ b₁ b₂ b₃ => simp [RxState.apply, hue]
  | some ue =>
    have hne : v ≠ ue := by
      intro h
      exact hv (by rw [hue, h])
    cases ce with
    | crnti rnti => exact ⟨hce rnti rfl, rfl, rfl⟩
    | powerHeadroom phr => simp [RxState.apply, hue, hne, hne.symm]
    | shortBsr lcgid size => simp [RxState.apply, hue, hne, hne.symm]
    | longBsr b₀ b₁ b₂ b₃ => simp [RxState.apply, hue, hne, hne.symm]

/-- A block changes the reports of the UEs it is attributed to only. -/
theorem RxState.foldl_frame {ces : List UlschCe} (hv : s.ueId ≠ some v)
    (hces : ∀ rnti, UlschCe.crnti rnti ∈ ces → findUeId rnti ≠ some v) :
    (ces.foldl (RxState.apply findUeId) s).phrInfo v = s.phrInfo v ∧
      (ces.foldl (RxState.apply findUeId) s).bsrInfo v = s.bsrInfo v := by
  induction ces generalizing s with
  | nil => exact ⟨rfl, rfl⟩
  | cons ce ces ih =>
    obtain ⟨hue, hphr, hbsr⟩ := RxState.apply_frame ce hv (fun rnti h ↦ hces rnti (by simp [h]))
    obtain ⟨hphr', hbsr'⟩ := ih hue (fun rnti h ↦ hces rnti (List.mem_cons_of_mem ce h))
    exact ⟨hphr'.trans hphr, hbsr'.trans hbsr⟩

end

/-- The eNB decodes the values that the UE sent exactly when the two octets of
the C-RNTI agree and a long report has no low bits in its third size. -/
theorem ulsch_control_iff (buf : ℕ → ℕ) (sdus : List (ℕ × ℕ))
    (powerHeadroom : Option PowerHeadroomCmd) (crnti : Option (Fin 65536))
    (truncatedBsr shortBsr : Option BsrShort) (longBsr : Option BsrLong)
    (shortPadding postPadding : ℕ) (rest : List ℕ) (mem : ℕ → ℕ) (block : List ℕ)
    (hlcid : ∀ sdu ∈ sdus, sdu.1 < extendedPowerHeadroom) (hfew : sdus.length ≤ nbRbMax)
    (hpad : shortPadding = 0 ∨ postPadding = 0)
    (hne : headerItems (HeaderState.padCount shortPadding)
      ((ulschElements powerHeadroom crnti truncatedBsr shortBsr longBsr).map Prod.fst) sdus
      postPadding ≠ [])
    (hblock : block = load (generateUlschHeader buf shortPadding sdus powerHeadroom crnti
        truncatedBsr shortBsr longBsr postPadding).1 0
        (generateUlschHeader buf shortPadding sdus powerHeadroom crnti
        truncatedBsr shortBsr longBsr postPadding).2 ++ rest)
    (hmem : Stores mem 0 block) :
    rxControlElements mem block.length =
        .ok (sentCes powerHeadroom crnti truncatedBsr shortBsr longBsr) ↔
      (∀ c, crnti = some c → c.val / 256 = c.val % 256) ∧
      (truncatedBsr = none → shortBsr = none → ∀ b, longBsr = some b →
        b.bufferSize2.val % 4 = 0) := by
  rw [rxControlElements_received buf sdus hlcid hfew hpad hne hblock hmem, Except.ok.injEq]
  exact receivedCes_eq_iff

theorem ulsch_control_iff_crnti :
    rxControlElements (fun i ↦ [27, 0x12, 0x12].getD i 0) 3 =
        .ok (sentCes none (some 0x1212) none none none) ↔
      (∀ c, some (0x1212 : Fin 65536) = some c → c.val / 256 = c.val % 256) ∧
      ((none : Option BsrShort) = none → (none : Option BsrShort) = none →
        ∀ b, (none : Option BsrLong) = some b → b.bufferSize2.val % 4 = 0) :=
  ulsch_control_iff (fun _ ↦ 0) [] none (some 0x1212) none none none 0 0 []
    (fun i ↦ [27, 0x12, 0x12].getD i 0) [27, 0x12, 0x12] (by decide) (by decide) (.inl rfl)
    (headerItems_ne_nil.mpr (by decide)) (by decide) ⟨rfl, rfl, rfl, trivial⟩

/-- The C-RNTI 0x1234 arrives as 0x3412. -/
theorem not_ulsch_control_crnti :
    [27, 0x34, 0x12] = load (generateUlschHeader (fun _ ↦ 0) 0 [] none (some 0x1234) none none
        none 0).1 0
      (generateUlschHeader (fun _ ↦ 0) 0 [] none (some 0x1234) none none none 0).2 ∧
    Stores (fun i ↦ [27, 0x34, 0x12].getD i 0) 0 [27, 0x34, 0x12] ∧
    ¬ rxControlElements (fun i ↦ [27, 0x34, 0x12].getD i 0) 3 =
      .ok (sentCes none (some 0x1234) none none none) := by
  refine ⟨by decide, ⟨rfl, rfl, rfl, trivial⟩, fun h ↦ ?_⟩
  have hread : rxControlElements (fun i ↦ [27, 0x34, 0x12].getD i 0) 3 =
      .ok [.crnti 0x3412] := by rfl
  rw [hread, Except.ok.injEq] at h
  revert h
  decide

end EdgeSlice.Mac
