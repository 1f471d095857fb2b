import EdgeSlice.Coding.LteSegmentation
import Mathlib.Tactic.Ring

/-! The numbers of segments and their sizes. -/

namespace EdgeSlice.Coding.LteSegmentation

/-- The sizes that the turbo code has. -/
def Legal (K : ℕ) : Prop :=
  (40 ≤ K ∧ K ≤ 512 ∧ K % 8 = 0) ∨ (512 ≤ K ∧ K ≤ 1024 ∧ K % 16 = 0) ∨
    (1024 ≤ K ∧ K ≤ 2048 ∧ K % 32 = 0) ∨ (2048 ≤ K ∧ K ≤ 6144 ∧ K % 64 = 0)

variable {B x : UInt32} {z : Sizes}

theorem segmentCount_of_le (h : B.toNat ≤ 6144) : segmentCount B = 1 := by
  have hle : B ≤ 6144 := h
  rw [segmentCount, if_pos hle]

theorem segmentCount_of_lt (h : 6144 < B.toNat) : (segmentCount B).toNat = (B.toNat + 6119) / 6120 := by
  have hlt : ¬ B ≤ 6144 := fun hle ↦ absurd (UInt32.le_iff_toNat_le.1 hle) (Nat.not_le.2 h)
  have hB := B.toNat_lt
  simp only [segmentCount, crcLength, if_neg hlt]
  have hL : (6144 : UInt32) - 24 = 6120 := by decide
  rw [hL]
  have hdiv : (B / 6120).toNat = B.toNat / 6120 := by simp
  have hmul : (6120 * (B / 6120)).toNat = 6120 * (B.toNat / 6120) := by
    rw [UInt32.toNat_mul, hdiv]
    have h6120 : UInt32.toNat 6120 = 6120 := rfl
    rw [h6120]
    omega
  have hiff : 6120 * (B / 6120) < B ↔ 6120 * (B.toNat / 6120) < B.toNat := by
    rw [UInt32.lt_iff_toNat_lt, hmul]
  by_cases hshort : 6120 * (B / 6120) < B
  · rw [if_pos hshort, UInt32.toNat_add, hdiv]
    have hone : UInt32.toNat 1 = 1 := rfl
    rw [hone]
    have := hiff.1 hshort
    omega
  · rw [if_neg hshort, hdiv]
    have := mt hiff.2 hshort
    omega

theorem bprime_of_le (h : B.toNat ≤ 6144) : bprime B = B := by
  have hle : B ≤ 6144 := h
  rw [bprime, if_pos hle]

theorem bprime_of_lt (h : 6144 < B.toNat) (hC : segmentCount B ≤ MAX_NUM_DLSCH_SEGMENTS) :
    (bprime B).toNat = B.toNat + 24 * (segmentCount B).toNat := by
  have hlt : ¬ B ≤ 6144 := fun hle ↦ absurd (UInt32.le_iff_toNat_le.1 hle) (Nat.not_le.2 h)
  have hcount := segmentCount_of_lt h
  have hmax : (segmentCount B).toNat ≤ 16 := hC
  have h24 : (24 : UInt32).toNat = 24 := rfl
  rw [bprime, if_neg hlt, crcLength, if_neg hlt, UInt32.toNat_add, UInt32.toNat_mul, h24]
  omega

theorem roundedDown_toNat {k : UInt32} {n : ℕ} (hshift : k.toNat = n) (hn : n ≤ 6) :
    ((x >>> k) <<< k).toNat = x.toNat / 2 ^ n * 2 ^ n := by
  have hx := x.toNat_lt
  have hle : x.toNat / 2 ^ n * 2 ^ n ≤ x.toNat := Nat.div_mul_le_self _ _
  have hmod : n % 32 = n := Nat.mod_eq_of_lt (by omega)
  rw [UInt32.toNat_shiftLeft, UInt32.toNat_shiftRight, hshift, hmod, Nat.shiftLeft_eq, Nat.shiftRight_eq_div_pow]
  exact Nat.mod_eq_of_lt (Nat.lt_of_le_of_lt hle hx)

/-- `Kplus` is the next multiple of the s from `bprimeByC` on, and `Kminus` the one below. -/
theorem roundedUp_toNat {s k : UInt32} {n : ℕ} (hstep : s.toNat = 2 ^ n) (hshift : k.toNat = n)
    (hn : n ≤ 6) (hx : 0 < x.toNat) (hx' : x.toNat ≤ 6144) :
    x.toNat ≤ (roundedUp s k x).1.toNat ∧ (roundedUp s k x).1.toNat < x.toNat + 2 ^ n ∧
      2 ^ n ∣ (roundedUp s k x).1.toNat ∧
      (roundedUp s k x).2.toNat + 2 ^ n = (roundedUp s k x).1.toNat := by
  have hdown := roundedDown_toNat (x := x) hshift hn
  have hdiv := Nat.div_add_mod' x.toNat (2 ^ n)
  have hrem := Nat.mod_lt x.toNat (Nat.two_pow_pos n)
  have hpow : 2 ^ n ≤ 2 ^ 6 := Nat.pow_le_pow_right (by decide) hn
  have hup : ((x >>> k) <<< k + s).toNat = x.toNat / 2 ^ n * 2 ^ n + 2 ^ n := by
    rw [UInt32.toNat_add, hdown, hstep]
    omega
  have hiff : (x >>> k) <<< k < x ↔ x.toNat / 2 ^ n * 2 ^ n < x.toNat := by
    rw [UInt32.lt_iff_toNat_lt, hdown]
  simp only [roundedUp]
  by_cases hlt : (x >>> k) <<< k < x
  · have hlt' := hiff.1 hlt
    have hback : ((x >>> k) <<< k + s - s) = (x >>> k) <<< k := by
      apply UInt32.add_sub_cancel
    simp only [if_pos hlt, hback, hup, hdown]
    refine ⟨by omega, by omega, ?_, trivial⟩
    exact Nat.dvd_add (Nat.dvd_mul_left _ _) (Nat.dvd_refl _)
  · have hle := mt hiff.2 hlt
    have hge : 2 ^ n ≤ x.toNat / 2 ^ n * 2 ^ n := by
      have hne : x.toNat / 2 ^ n ≠ 0 := by
        intro hzero
        rw [hzero] at hle
        omega
      exact Nat.le_mul_of_pos_left _ (Nat.pos_of_ne_zero hne)
    have hge' : s ≤ (x >>> k) <<< k := by
      rw [UInt32.le_iff_toNat_le, hdown, hstep]
      exact hge
    have hsub := UInt32.toNat_sub_of_le _ _ hge'
    simp only [if_neg hlt, hsub, hdown, hstep]
    refine ⟨by omega, by omega, Nat.dvd_mul_left _ _, by omega⟩

/-- What Find K+ gives for a single segment. -/
theorem blockSizes_single (hpos : 0 < x.toNat) (h8 : 8 ∣ x.toNat) (hle : x.toNat ≤ 6144) :
    ∃ Kplus Kminus, blockSizes x = some (Kplus, Kminus) ∧ Legal Kplus.toNat ∧ x.toNat ≤ Kplus.toNat ∧
      (∀ K, Legal K → x.toNat ≤ K → Kplus.toNat ≤ K) ∧ Kplus.toNat < x.toNat + 64 := by
  have h40 : x ≤ 40 ↔ x.toNat ≤ 40 := UInt32.le_iff_toNat_le
  have h512 : x ≤ 512 ↔ x.toNat ≤ 512 := UInt32.le_iff_toNat_le
  have h1024 : x ≤ 1024 ↔ x.toNat ≤ 1024 := UInt32.le_iff_toNat_le
  have h2048 : x ≤ 2048 ↔ x.toNat ≤ 2048 := UInt32.le_iff_toNat_le
  have h6144 : x ≤ 6144 ↔ x.toNat ≤ 6144 := UInt32.le_iff_toNat_le
  simp only [blockSizes, h40, h512, h1024, h2048, h6144]
  unfold Legal
  by_cases hle40 : x.toNat ≤ 40
  · have hplus : (40 : UInt32).toNat = 40 := rfl
    refine ⟨40, 0, if_pos hle40, ?_, ?_, ?_, ?_⟩ <;> omega
  by_cases hle512 : x.toNat ≤ 512
  · have hplus : ((x >>> 3) <<< 3).toNat = x.toNat / 8 * 8 :=
      roundedDown_toNat (k := 3) (n := 3) rfl (by decide)
    refine ⟨(x >>> 3) <<< 3, x - 8, by rw [if_neg hle40, if_pos hle512], ?_, ?_, ?_, ?_⟩ <;> omega
  by_cases hle1024 : x.toNat ≤ 1024
  · have hround := roundedUp_toNat (x := x) (s := 16) (k := 4) (n := 4) rfl rfl (by decide) hpos hle
    refine ⟨_, _, by rw [if_neg hle40, if_neg hle512, if_pos hle1024], ?_, ?_, ?_, ?_⟩ <;> omega
  by_cases hle2048 : x.toNat ≤ 2048
  · have hround := roundedUp_toNat (x := x) (s := 32) (k := 5) (n := 5) rfl rfl (by decide) hpos hle
    refine ⟨_, _, by rw [if_neg hle40, if_neg hle512, if_neg hle1024, if_pos hle2048], ?_, ?_, ?_, ?_⟩ <;> omega
  · have hround := roundedUp_toNat (x := x) (s := 64) (k := 6) (n := 6) rfl rfl (by decide) hpos hle
    refine ⟨_, _, by rw [if_neg hle40, if_neg hle512, if_neg hle1024, if_neg hle2048, if_pos hle], ?_, ?_, ?_, ?_⟩
      <;> omega

/-- What it gives for the average of several segments. -/
theorem blockSizes_several (hlow : 2048 < x.toNat) (hle : x.toNat ≤ 6144) :
    ∃ Kplus Kminus, blockSizes x = some (Kplus, Kminus) ∧ x.toNat ≤ Kplus.toNat ∧ Kplus.toNat < x.toNat + 64 ∧
      64 ∣ Kplus.toNat ∧ Kminus.toNat + 64 = Kplus.toNat := by
  have h₁ : ¬ x ≤ 40 := fun h ↦ absurd (UInt32.le_iff_toNat_le.1 h) (by change ¬ x.toNat ≤ 40; omega)
  have h₂ : ¬ x ≤ 512 := fun h ↦ absurd (UInt32.le_iff_toNat_le.1 h) (by change ¬ x.toNat ≤ 512; omega)
  have h₃ : ¬ x ≤ 1024 := fun h ↦ absurd (UInt32.le_iff_toNat_le.1 h) (by change ¬ x.toNat ≤ 1024; omega)
  have h₄ : ¬ x ≤ 2048 := fun h ↦ absurd (UInt32.le_iff_toNat_le.1 h) (by change ¬ x.toNat ≤ 2048; omega)
  have h₅ : x ≤ 6144 := hle
  obtain ⟨hge, hlt, hdvd, hminus⟩ := roundedUp_toNat (x := x) (s := 64) (k := 6) (n := 6) rfl rfl
    (Nat.le_refl 6) (by omega) hle
  refine ⟨(roundedUp 64 6 x).1, (roundedUp 64 6 x).2, ?_, hge, hlt, hdvd, hminus⟩
  simp only [blockSizes, if_neg h₁, if_neg h₂, if_neg h₃, if_neg h₄, if_pos h₅]

/-- `B'`, over the natural numbers. -/
def totalBits (B C : ℕ) : ℕ := if B ≤ 6144 then B else B + 24 * C

/-- The numbers are the ones that the segmentation asks for. -/
structure SizesExact (B : ℕ) (z : Sizes) : Prop where
  count : z.C.toNat = if B ≤ 6144 then 1 else (B + 6119) / 6120
  legal : Legal z.Kplus.toNat
  capacity : totalBits B z.C.toNat ≤ z.C.toNat * z.Kplus.toNat
  least : ∀ K, Legal K → totalBits B z.C.toNat ≤ z.C.toNat * K → z.Kplus.toNat ≤ K
  below : 1 < z.C.toNat → Legal z.Kminus.toNat ∧ z.Kminus.toNat < z.Kplus.toNat ∧
    ∀ K, Legal K → K < z.Kplus.toNat → K ≤ z.Kminus.toNat
  segments : z.Cplus.toNat + z.Cminus.toNat = z.C.toNat
  total : z.Cplus.toNat * z.Kplus.toNat + z.Cminus.toNat * z.Kminus.toNat = totalBits B z.C.toNat + z.F.toNat
  fillers : z.F.toNat < 64 ∧ 8 ∣ z.F.toNat

/-- The rounded average is enough for the whole block: not so where nine or more segments have 8 bits
more than the multiple of their number by 64. -/
def Fits (B : ℕ) : Prop :=
  ¬ (9 ≤ (B + 6119) / 6120 ∧ (B + 24 * ((B + 6119) / 6120)) % (64 * ((B + 6119) / 6120)) = 8)

instance (B : ℕ) : Decidable (Fits B) := inferInstanceAs (Decidable (¬ _))

theorem sizes_single (hpos : 0 < B.toNat) (h8 : 8 ∣ B.toNat) (hle : B.toNat ≤ 6144) (hz : sizes B = some z) :
    SizesExact B.toNat z ∧ z.C = 1 ∧ z.Cminus = 0 := by
  have hC := segmentCount_of_le hle
  have hB := bprime_of_le hle
  obtain ⟨Kplus, Kminus, hblock, hlegal, hge, hleast, hlt⟩ := blockSizes_single hpos h8 hle
  have hmax : ¬ (1 : UInt32) > MAX_NUM_DLSCH_SEGMENTS := by decide
  have hdiv : B / 1 = B := by simp
  simp only [sizes, hC, hB, if_neg hmax, hdiv, hblock, Option.map_some, if_true] at hz
  obtain rfl := Option.some_inj.1 hz
  have hF : (1 * Kplus + 0 * 0 - B).toNat = Kplus.toNat - B.toNat := by
    have hsum : (1 : UInt32) * Kplus + 0 * 0 = Kplus := by simp
    rw [hsum, UInt32.toNat_sub_of_le _ _ hge]
  have hone : UInt32.toNat 1 = 1 := rfl
  have hzero : UInt32.toNat 0 = 0 := rfl
  have h8' : 8 ∣ Kplus.toNat := by
    unfold Legal at hlegal
    omega
  refine ⟨⟨?_, hlegal, ?_, ?_, ?_, ?_, ?_, ?_⟩, rfl, rfl⟩
  all_goals simp only [hone, hzero, hF, totalBits, if_pos hle]
  · omega
  · intro K hK hcap
    exact hleast K hK (by omega)
  · omega
  · omega
  · omega

/-- `N` bits in `C` segments of the rounded average size `K`. -/
theorem capacity_iff {N C K : ℕ} (hC : 0 < C) (hC16 : C ≤ 16) (h8 : 8 ∣ N) (hge : N / C ≤ K) (hlt : K < N / C + 64)
    (h64 : 64 ∣ K) : N ≤ C * K ↔ ¬ (9 ≤ C ∧ N % (64 * C) = 8) := by
  have hsplit := Nat.div_add_mod N C
  have hrem := Nat.mod_lt N hC
  constructor
  · rintro hcap ⟨hnine, hmod⟩
    have hN : N = C * (64 * (N / (64 * C))) + 8 := by
      have h := Nat.div_add_mod N (64 * C)
      rw [hmod] at h
      rw [← Nat.mul_assoc, Nat.mul_comm C 64]
      exact h.symm
    have havg : N / C = 64 * (N / (64 * C)) := by
      rw [hN, Nat.mul_add_div hC, Nat.div_eq_of_lt (by omega : 8 < C), Nat.add_zero, ← hN]
    have hK : K = 64 * (N / (64 * C)) := by omega
    rw [← hK] at hN
    omega
  · intro hfit
    by_contra hshort
    have hK : K = N / C := by
      by_contra hne
      have hmore : C * (N / C + 1) ≤ C * K := Nat.mul_le_mul_left _ (by omega)
      rw [Nat.mul_succ] at hmore
      omega
    have hdvd : 8 ∣ C * (N / C) := by
      rw [← hK]
      exact Nat.dvd_mul_left_of_dvd (Nat.dvd_trans (by decide) h64) C
    have height : N % C = 8 := by
      rw [hK] at hshort
      omega
    apply hfit
    refine ⟨by omega, ?_⟩
    obtain ⟨m, hm⟩ := h64
    have hN : N = 64 * C * m + 8 := by
      rw [← hsplit, height, ← hK, hm, Nat.mul_left_comm, Nat.mul_assoc]
    rw [hN, Nat.mul_add_mod, Nat.mod_eq_of_lt (by omega)]

theorem legal_of_ge {K : ℕ} (hlow : 2048 ≤ K) : Legal K ↔ K ≤ 6144 ∧ 64 ∣ K := by
  unfold Legal
  omega

theorem sizesExact_of_capacity {C N Kplus Kminus : UInt32} {b : ℕ}
    (hcount : C.toNat = (b + 6119) / 6120) (hC2 : 2 ≤ C.toNat) (hC16 : C.toNat ≤ 16) (hb : 6144 < b)
    (htotal : totalBits b C.toNat = N.toNat) (h8 : 8 ∣ N.toNat) (hxlow : 2048 < N.toNat / C.toNat)
    (hxhigh : N.toNat / C.toNat ≤ 6144) (hge : N.toNat / C.toNat ≤ Kplus.toNat)
    (hlt64 : Kplus.toNat < N.toNat / C.toNat + 64) (hdvd : 64 ∣ Kplus.toNat)
    (hminus : Kminus.toNat + 64 = Kplus.toNat) (hcap : N.toNat ≤ C.toNat * Kplus.toNat) :
    SizesExact b
      { C, Cplus := C - (C * Kplus - N) / (Kplus - Kminus), Cminus := (C * Kplus - N) / (Kplus - Kminus), Kplus, Kminus,
        F := (C - (C * Kplus - N) / (Kplus - Kminus)) * Kplus + (C * Kplus - N) / (Kplus - Kminus) * Kminus - N } := by
  have hstep : (Kplus - Kminus).toNat = 64 := by
    rw [UInt32.toNat_sub_of_le _ _ (UInt32.le_iff_toNat_le.2 (by omega))]
    omega
  have hprodle : C.toNat * Kplus.toNat ≤ 16 * 6208 := Nat.mul_le_mul hC16 (by omega)
  have hprod : (C * Kplus).toNat = C.toNat * Kplus.toNat := by
    rw [UInt32.toNat_mul]
    exact Nat.mod_eq_of_lt (by omega)
  have hspare : (C * Kplus - N).toNat = C.toNat * Kplus.toNat - N.toNat := by
    rw [UInt32.toNat_sub_of_le _ _ (UInt32.le_iff_toNat_le.2 (by omega)), hprod]
  have hCminus : ((C * Kplus - N) / (Kplus - Kminus)).toNat = (C.toNat * Kplus.toNat - N.toNat) / 64 := by
    rw [UInt32.toNat_div, hspare, hstep]
  -- the average was rounded up by less than 64
  have hspare_lt : C.toNat * Kplus.toNat - N.toNat < 64 * C.toNat := by
    have hle : C.toNat * Kplus.toNat ≤ C.toNat * (N.toNat / C.toNat + 63) := Nat.mul_le_mul_left _ (by omega)
    have hdiv := Nat.mul_div_le N.toNat C.toNat
    rw [Nat.mul_add] at hle
    omega
  generalize (C * Kplus - N) / (Kplus - Kminus) = Cminus at *
  have hCplus : (C - Cminus).toNat = C.toNat - Cminus.toNat :=
    UInt32.toNat_sub_of_le _ _ (UInt32.le_iff_toNat_le.2 (by omega))
  have hsum : (C.toNat - Cminus.toNat) * Kplus.toNat + Cminus.toNat * Kminus.toNat + 64 * Cminus.toNat =
      C.toNat * Kplus.toNat := by
    obtain ⟨p, hp⟩ : ∃ p, C.toNat = p + Cminus.toNat := ⟨C.toNat - Cminus.toNat, by omega⟩
    rw [hp, ← hminus, Nat.add_sub_cancel]
    ring
  have hleft : ((C - Cminus) * Kplus).toNat = (C.toNat - Cminus.toNat) * Kplus.toNat := by
    rw [UInt32.toNat_mul, hCplus]
    exact Nat.mod_eq_of_lt (by omega)
  have hright : (Cminus * Kminus).toNat = Cminus.toNat * Kminus.toNat := by
    rw [UInt32.toNat_mul]
    exact Nat.mod_eq_of_lt (by omega)
  have hboth : ((C - Cminus) * Kplus + Cminus * Kminus).toNat =
      (C.toNat - Cminus.toNat) * Kplus.toNat + Cminus.toNat * Kminus.toNat := by
    rw [UInt32.toNat_add, hleft, hright]
    exact Nat.mod_eq_of_lt (by omega)
  have hF : ((C - Cminus) * Kplus + Cminus * Kminus - N).toNat =
      (C.toNat - Cminus.toNat) * Kplus.toNat + Cminus.toNat * Kminus.toNat - N.toNat := by
    rw [UInt32.toNat_sub_of_le _ _ (UInt32.le_iff_toNat_le.2 (by omega)), hboth]
  have hprod8 : 8 ∣ C.toNat * Kplus.toNat :=
    Nat.dvd_mul_left_of_dvd (Nat.dvd_trans (by decide) hdvd) C.toNat
  refine ⟨?_, ?_, ?_, ?_, ?_, ?_, ?_, ?_⟩
  all_goals simp only [htotal, hCplus, hF]
  · rw [if_neg (by omega), hcount]
  · exact (legal_of_ge (by omega)).2 (by omega)
  · exact hcap
  · intro K hK hle
    have havg : N.toNat / C.toNat ≤ K := Nat.div_le_of_le_mul hle
    have hlegal := (legal_of_ge (by omega)).1 hK
    omega
  · intro _
    refine ⟨(legal_of_ge (by omega)).2 (by omega), by omega, ?_⟩
    intro K hK hlt
    by_cases hlow : 2048 ≤ K
    · have hlegal := (legal_of_ge hlow).1 hK
      omega
    · omega
  · omega
  · omega
  · omega

theorem sizes_several (h8 : 8 ∣ B.toNat) (hlt : 6144 < B.toNat) (hz : sizes B = some z) :
    (SizesExact B.toNat z ↔ Fits B.toNat) := by
  have hcount := segmentCount_of_lt hlt
  have hmax : ¬ segmentCount B > MAX_NUM_DLSCH_SEGMENTS := by
    intro hmax
    simp [sizes, hmax] at hz
  have hC16 : (segmentCount B).toNat ≤ 16 := UInt32.le_iff_toNat_le.1 (UInt32.not_lt.1 hmax)
  have hN := bprime_of_lt hlt (UInt32.not_lt.1 hmax)
  set C := segmentCount B with hCdef
  set N := bprime B with hNdef
  have hC2 : 2 ≤ C.toNat := by omega
  have hx : (N / C).toNat = N.toNat / C.toNat := UInt32.toNat_div _ _
  have hxlow : 2048 < N.toNat / C.toNat := by
    apply (Nat.le_div_iff_mul_le (by omega)).2
    omega
  have hxhigh : N.toNat / C.toNat ≤ 6144 := by
    apply Nat.le_of_lt_succ
    apply (Nat.div_lt_iff_lt_mul (by omega)).2
    omega
  obtain ⟨Kplus, Kminus, hblock, hge, hlt64, hdvd, hminus⟩ := blockSizes_several (x := N / C) (by omega) (by omega)
  rw [hx] at hge hlt64
  have hne1 : ¬ C = 1 := by
    intro h1
    rw [h1] at hC2
    exact absurd hC2 (by decide)
  simp only [sizes, ← hCdef, ← hNdef, if_neg hmax, hblock, Option.map_some, if_neg hne1] at hz
  obtain rfl := Option.some_inj.1 hz
  have htotal : totalBits B.toNat C.toNat = N.toNat := by
    rw [totalBits, if_neg (by omega), hN]
  have hfits : N.toNat ≤ C.toNat * Kplus.toNat ↔ Fits B.toNat := by
    rw [Fits, ← hcount, ← hN]
    exact capacity_iff (by omega) hC16 (by omega) hge hlt64 hdvd
  constructor
  · intro hexact
    have hcap := hexact.capacity
    simp only [htotal] at hcap
    exact hfits.1 hcap
  · intro hfit
    have hcap := hfits.2 hfit
    exact sizesExact_of_capacity hcount hC2 hC16 (by omega) htotal (by omega) hxlow hxhigh hge hlt64 hdvd hminus hcap

end EdgeSlice.Coding.LteSegmentation

/-! The segments hold the input. -/

namespace EdgeSlice.Coding.LteSegmentation

open EdgeSlice.ByteMemory EdgeSlice.CountedLoop EdgeSlice.Coding.CrcByte Function

variable {t : CrcTables} {input : ℕ → BitVec 8} {L : UInt32} {z : Sizes} {B : UInt32}

theorem copyWhile_eq (input : ℕ → BitVec 8) (limit : ℕ) (segment : ℕ → BitVec 8) (k s : ℕ) :
    copyWhile input limit segment k s =
      (fun j ↦ if k ≤ j ∧ j < limit then input (s + (j - k)) else segment j, max k limit, s + (limit - k)) := by
  induction segment, k, s using copyWhile.induct input limit with
  | case1 segment k s hlt ih =>
    rw [copyWhile, if_pos hlt, ih]
    refine Prod.ext (funext fun j ↦ ?_) (Prod.ext ?_ ?_)
    · by_cases hk : j = k
      · subst hk
        simp [hlt]
      · have hiff : k + 1 ≤ j ∧ j < limit ↔ k ≤ j ∧ j < limit := by omega
        by_cases hin : k ≤ j ∧ j < limit
        · have hplace : s + 1 + (j - (k + 1)) = s + (j - k) := by omega
          simp only [if_pos hin, if_pos (hiff.2 hin), hplace]
        · simp only [if_neg hin, if_neg (mt hiff.1 hin), update_of_ne hk]
    · change max (k + 1) limit = max k limit
      omega
    · change s + 1 + (limit - (k + 1)) = s + (limit - k)
      omega
  | case2 segment k s hge =>
    rw [copyWhile, if_neg hge]
    refine Prod.ext (funext fun j ↦ ?_) (Prod.ext ?_ ?_)
    · have hout : ¬ (k ≤ j ∧ j < limit) := by omega
      simp only [if_neg hout]
    · change k = max k limit
      omega
    · change s = s + (limit - k)
      omega

/-- The octets of zeros in front of segment `r`. -/
def fillerOctets (z : Sizes) (r : ℕ) : ℕ := if r = 0 then z.F.toNat / 8 else 0

def checkOctets (z : Sizes) : ℕ := if z.C > 1 then 3 else 0

/-- Segment `r` without its fillers and its check. -/
def payload (z : Sizes) (output_buffers : ℕ → ℕ → BitVec 8) (r : ℕ) : List (BitVec 8) :=
  (load (output_buffers r) 0 ((z.segmentSize r).toNat / 8 - checkOctets z)).drop (fillerOctets z r)

/-- Every segment takes whole octets, with room for its fillers and its check. -/
def Roomy (L : UInt32) (z : Sizes) : Prop :=
  L.toNat = 8 * checkOctets z ∧ 8 ∣ z.F.toNat ∧
    ∀ r, 8 ∣ (z.segmentSize r).toNat ∧ L.toNat + z.F.toNat ≤ (z.segmentSize r).toNat

theorem Roomy.limit (h : Roomy L z) (r : ℕ) :
    ((z.segmentSize r - L) >>> 3).toNat = (z.segmentSize r).toNat / 8 - checkOctets z := by
  obtain ⟨hL, -, hsize⟩ := h
  have hroom := (hsize r).2
  have h3 : UInt32.toNat 3 % 32 = 3 := rfl
  rw [UInt32.toNat_shiftRight, UInt32.toNat_sub_of_le _ _ (UInt32.le_iff_toNat_le.2 (by omega)), h3,
    Nat.shiftRight_eq_div_pow]
  omega

theorem payload_eq_load (z : Sizes) (output_buffers : ℕ → ℕ → BitVec 8) (r : ℕ) :
    payload z output_buffers r = load (output_buffers r) (fillerOctets z r)
      ((z.segmentSize r).toNat / 8 - checkOctets z - fillerOctets z r) := by
  rw [payload]
  generalize fillerOctets z r = f
  generalize (z.segmentSize r).toNat / 8 - checkOctets z = n
  by_cases hle : f ≤ n
  · have hsum : n = f + (n - f) := by omega
    have hlen : (load (output_buffers r) 0 f).length = f := load_length _ _ _
    rw [hsum, load_add, List.drop_left' hlen, Nat.zero_add, Nat.add_sub_cancel_left]
  · have hnone : n - f = 0 := by omega
    rw [hnone, List.drop_of_length_le (by rw [load_length]; omega)]
    rfl

/-- The check is written behind the data. -/
theorem addCrc_below (h : Roomy L z) (hC : z.C > 1) (r : ℕ) (segment : ℕ → BitVec 8) {j : ℕ}
    (hj : j < (z.segmentSize r).toNat / 8 - checkOctets z) :
    addCrc t (z.segmentSize r - 24).toNat segment j = segment j := by
  obtain ⟨hL, -, hsize⟩ := h
  have hroom := (hsize r).2
  rw [checkOctets, if_pos hC] at hL hj
  have h24 : UInt32.toNat 24 = 24 := rfl
  have hlen : (z.segmentSize r - 24).toNat = (z.segmentSize r).toNat - 24 := by
    rw [UInt32.toNat_sub_of_le _ _ (UInt32.le_iff_toNat_le.2 (by omega)), h24]
  rw [addCrc]
  apply store_outside
  omega

variable (t input) in
/-- One turn of the loop: the segment takes the next octets of the input, the others stay. -/
theorem copySegment_payload (h : Roomy L z) {r : ℕ} {st : Copying} (hk : st.k = fillerOctets z r) :
    (copySegment t input L z r st).k = 0 ∧
    (copySegment t input L z r st).s =
      st.s + ((z.segmentSize r).toNat / 8 - checkOctets z - fillerOctets z r) ∧
    payload z (copySegment t input L z r st).output_buffers r =
      load input st.s ((z.segmentSize r).toNat / 8 - checkOctets z - fillerOctets z r) ∧
    ∀ q, q ≠ r → payload z (copySegment t input L z r st).output_buffers q = payload z st.output_buffers q := by
  have hlimit := h.limit r
  simp only [copySegment, copyWhile_eq, hlimit, hk]
  refine ⟨trivial, trivial, ?_, ?_⟩
  · rw [payload_eq_load, load, load]
    apply List.map_congr_left
    intro i hi
    have hlt := List.mem_range.1 hi
    have hin : fillerOctets z r ≤ fillerOctets z r + i ∧
        fillerOctets z r + i < (z.segmentSize r).toNat / 8 - checkOctets z := by omega
    simp only [update_self]
    split
    case isTrue hC =>
      rw [addCrc_below h hC r _ hin.2, if_pos hin, Nat.add_sub_cancel_left]
    case isFalse => simp only [if_pos hin, Nat.add_sub_cancel_left]
  · intro q hq
    simp only [payload, update_of_ne hq]

/-- The places that the first `R` segments have taken, in bits. -/
def sizeSum (z : Sizes) : ℕ → ℕ
  | 0 => 0
  | R + 1 => sizeSum z R + (z.segmentSize R).toNat

variable (t input) in
theorem copySegments_payload (h : Roomy L z) (st : Copying) (hk : st.k = z.F.toNat / 8) (hs : st.s = 0) (R : ℕ) :
    let st' := turns R (copySegment t input L z) st
    st'.k = fillerOctets z R ∧
    8 * st'.s + (if R = 0 then 0 else z.F.toNat) + L.toNat * R = sizeSum z R ∧
    (List.range R).flatMap (payload z st'.output_buffers) = load input 0 st'.s := by
  induction R with
  | zero => simp [hk, hs, fillerOctets, sizeSum, load]
  | succ R ih =>
    obtain ⟨hk', hsum, hdata⟩ := ih
    obtain ⟨hknext, hsnext, hown, hothers⟩ := copySegment_payload t input h hk'
    have hfillers : fillerOctets z (R + 1) = 0 := by simp [fillerOctets]
    obtain ⟨hL, h8F, hsize⟩ := h
    obtain ⟨h8, hroom⟩ := hsize R
    refine ⟨by rw [turns_succ, hknext, hfillers], ?_, ?_⟩
    · rw [turns_succ, hsnext, sizeSum, ← hsum, Nat.mul_succ]
      unfold fillerOctets
      split <;> simp <;> omega
    · have hsame : (List.range R).flatMap (payload z (turns (R + 1) (copySegment t input L z) st).output_buffers) =
          (List.range R).flatMap (payload z (turns R (copySegment t input L z) st).output_buffers) := by
        rw [List.flatMap_def, List.flatMap_def]
        congr 1
        apply List.map_congr_left
        intro q hq
        rw [turns_succ]
        exact hothers q (Nat.ne_of_lt (List.mem_range.1 hq))
      rw [List.range_succ, List.flatMap_append, hsame, hdata, turns_succ, hsnext, load_add]
      simp [hown]

theorem sizeSum_eq (z : Sizes) (R : ℕ) :
    sizeSum z R = min R z.Cminus.toNat * z.Kminus.toNat + (R - z.Cminus.toNat) * z.Kplus.toNat := by
  induction R with
  | zero => simp [sizeSum]
  | succ R ih =>
    rw [sizeSum, ih, Sizes.segmentSize]
    by_cases hlt : R < z.Cminus.toNat
    · have hmin : min R z.Cminus.toNat = R := by omega
      have hmin' : min (R + 1) z.Cminus.toNat = R + 1 := by omega
      have hrest : R - z.Cminus.toNat = 0 := by omega
      have hrest' : R + 1 - z.Cminus.toNat = 0 := by omega
      rw [if_pos hlt, hmin, hmin', hrest, hrest', Nat.succ_mul]
      omega
    · have hmin : min R z.Cminus.toNat = z.Cminus.toNat := by omega
      have hmin' : min (R + 1) z.Cminus.toNat = z.Cminus.toNat := by omega
      have hrest : R + 1 - z.Cminus.toNat = R - z.Cminus.toNat + 1 := by omega
      rw [if_neg hlt, hmin, hmin', hrest, Nat.succ_mul]
      omega

theorem roomy_single (hle : B.toNat ≤ 6144) (hz : SizesExact B.toNat z) (hC : z.C = 1) (hCminus : z.Cminus = 0) :
    Roomy (crcLength B) z := by
  have hL : crcLength B = 0 := if_pos (UInt32.le_iff_toNat_le.2 hle)
  have hzero : UInt32.toNat 0 = 0 := rfl
  have hone : UInt32.toNat 1 = 1 := rfl
  have hcheck : checkOctets z = 0 := by
    rw [checkOctets, hC]
    rfl
  have hsegments := hz.segments
  have htotal := hz.total
  have hlegal := hz.legal
  rw [hC, hCminus, hone, hzero] at hsegments
  have hplus : z.Cplus.toNat = 1 := by omega
  rw [hplus, hCminus, hzero, totalBits, if_pos hle] at htotal
  refine ⟨by rw [hL, hcheck, hzero], hz.fillers.2, fun r ↦ ?_⟩
  have hsize : z.segmentSize r = z.Kplus := by simp [Sizes.segmentSize, hCminus]
  rw [hsize, hL, hzero]
  unfold Legal at hlegal
  exact ⟨by omega, by omega⟩

theorem roomy_several (hlt : 6144 < B.toNat) (hz : SizesExact B.toNat z) : Roomy (crcLength B) z := by
  have hnot : ¬ B ≤ 6144 := fun hle ↦ absurd (UInt32.le_iff_toNat_le.1 hle) (Nat.not_le.2 hlt)
  have hL : (crcLength B).toNat = 24 := by
    rw [crcLength, if_neg hnot]
    rfl
  have hcount := hz.count
  rw [if_neg (by omega)] at hcount
  have hC2 : 1 < z.C.toNat := by omega
  have hC : z.C > 1 := UInt32.lt_iff_toNat_lt.2 hC2
  have hcheck : checkOctets z = 3 := if_pos hC
  obtain ⟨hlegal, hbelow, hlargest⟩ := hz.below hC2
  have hplus : 2112 < z.Kplus.toNat := by
    by_contra hsmall
    have hcap := hz.capacity
    have hprod : z.C.toNat * z.Kplus.toNat ≤ z.C.toNat * 2112 := Nat.mul_le_mul_left _ (by omega)
    rw [totalBits, if_neg (by omega)] at hcap
    omega
  have hminus := hlargest 2112 (by unfold Legal; omega) hplus
  have hF := hz.fillers
  have hplus8 := (legal_of_ge (by omega)).1 hz.legal
  have hminus8 := (legal_of_ge (by omega)).1 hlegal
  refine ⟨by rw [hL, hcheck], hF.2, fun r ↦ ?_⟩
  rw [Sizes.segmentSize, hL]
  split
  · exact ⟨by omega, by omega⟩
  · exact ⟨by omega, by omega⟩

theorem copySegments_exact (hz : SizesExact B.toNat z) (h : Roomy (crcLength B) z) (h8 : 8 ∣ B.toNat)
    (output_buffers : ℕ → ℕ → BitVec 8) :
    (List.range z.C.toNat).flatMap (payload z (copySegments t input output_buffers (crcLength B) z)) =
      load input 0 (B.toNat / 8) := by
  have h3 : UInt32.toNat 3 % 32 = 3 := rfl
  have hfillers : (z.F >>> 3).toNat = z.F.toNat / 8 := by
    rw [UInt32.toNat_shiftRight, h3, Nat.shiftRight_eq_div_pow]
  obtain ⟨-, hsum, hdata⟩ := copySegments_payload t input h
    { output_buffers := update output_buffers 0
        (turns (z.F >>> 3).toNat (fun k segment ↦ update segment k 0#8) (output_buffers 0))
      k := (z.F >>> 3).toNat
      s := 0 } hfillers rfl z.C.toNat
  have hcount := hz.count
  have hpos : z.C.toNat ≠ 0 := by
    intro h0
    rw [h0] at hcount
    split at hcount <;> omega
  have hsegments := hz.segments
  have htotal := hz.total
  rw [sizeSum_eq, if_neg hpos, Nat.min_eq_right (by omega : z.Cminus.toNat ≤ z.C.toNat),
    (by omega : z.C.toNat - z.Cminus.toNat = z.Cplus.toNat)] at hsum
  simp only [copySegments]
  rw [hdata]
  congr 1
  by_cases hle : B.toNat ≤ 6144
  · have hL : (crcLength B).toNat = 0 := by
      rw [crcLength, if_pos (UInt32.le_iff_toNat_le.2 hle)]
      rfl
    rw [totalBits, if_pos hle] at htotal
    rw [hL, Nat.zero_mul] at hsum
    omega
  · have hnot : ¬ B ≤ 6144 := fun hle' ↦ hle (UInt32.le_iff_toNat_le.1 hle')
    have hL : (crcLength B).toNat = 24 := by
      rw [crcLength, if_neg hnot]
      rfl
    rw [totalBits, if_neg hle] at htotal
    rw [hL] at hsum
    omega

/-- Segmentation as it should be: the numbers are right, and the segments without fillers and checks
are the input. -/
def SegmentsExact (B : UInt32) (input_buffer : Option (ℕ → BitVec 8)) (z : Sizes)
    (output_buffers : Option (ℕ → ℕ → BitVec 8)) : Prop :=
  SizesExact B.toNat z ∧ ∀ input output, input_buffer = some input → output_buffers = some output →
    (List.range z.C.toNat).flatMap (payload z output) = load input 0 (B.toNat / 8)

theorem lte_segmentation_exact_iff (t : CrcTables) {input_buffer : Option (ℕ → BitVec 8)}
    {output_buffers filled : Option (ℕ → ℕ → BitVec 8)} (hpos : 0 < B.toNat) (h8 : 8 ∣ B.toNat)
    (h : lte_segmentation t input_buffer output_buffers B = some (z, filled)) :
    SegmentsExact B input_buffer z filled ↔ Fits B.toNat := by
  obtain ⟨z', hz, heq⟩ := Option.map_eq_some_iff.1 h
  have hsame : z' = z := by
    cases input_buffer <;> cases output_buffers <;> exact congrArg Prod.fst heq
  subst hsame
  have hsizes : (SizesExact B.toNat z' ↔ Fits B.toNat) ∧ (SizesExact B.toNat z' → Roomy (crcLength B) z') := by
    by_cases hle : B.toNat ≤ 6144
    · obtain ⟨hexact, hC, hCminus⟩ := sizes_single hpos h8 hle hz
      have hfits : Fits B.toNat := by
        unfold Fits
        omega
      exact ⟨iff_of_true hexact hfits, fun _ ↦ roomy_single hle hexact hC hCminus⟩
    · exact ⟨sizes_several h8 (by omega) hz, roomy_several (by omega)⟩
  constructor
  · exact fun hexact ↦ hsizes.1.1 hexact.1
  · intro hfits
    have hexact := hsizes.1.2 hfits
    refine ⟨hexact, ?_⟩
    intro input output hinput houtput
    subst hinput houtput
    cases output_buffers with
    | none => simp at heq
    | some before =>
      obtain rfl : copySegments t input before (crcLength B) z' = output := by simpa using heq
      exact copySegments_exact hexact (hsizes.2 hexact) h8 before

/-- The tables as the program starts with them. -/
def initialTables : CrcTables where
  crc24aTable := Vector.replicate 256 0#32
  crc24bTable := Vector.replicate 256 0#32
  crc16Table := Vector.replicate 256 0#16
  crc12Table := Vector.replicate 256 0#16
  crc8Table := Vector.replicate 256 0#8

theorem lte_segmentation_exact_6152 :
    SegmentsExact 6152 (some fun _ ↦ 1#8) ⟨2, 1, 1, 3136, 3072, 8⟩
      (some (copySegments initialTables (fun _ ↦ 1#8) (fun _ _ ↦ 0#8) (crcLength 6152) ⟨2, 1, 1, 3136, 3072, 8⟩)) := by
  have hsizes : sizes 6152 = some ⟨2, 1, 1, 3136, 3072, 8⟩ := by decide
  have hrun : lte_segmentation initialTables (some fun _ ↦ 1#8) (some fun _ _ ↦ 0#8) 6152 =
      some (⟨2, 1, 1, 3136, 3072, 8⟩, some (copySegments initialTables (fun _ ↦ 1#8) (fun _ _ ↦ 0#8) (crcLength 6152)
        ⟨2, 1, 1, 3136, 3072, 8⟩)) := by
    rw [lte_segmentation, hsizes]
    rfl
  exact (lte_segmentation_exact_iff initialTables (by decide) (by decide) hrun).2 (by decide)

/-- Nine segments with 8 bits more than nine times 6080. -/
theorem not_segmentsExact_54512 :
    (lte_segmentation initialTables (some fun _ ↦ 1#8) (some fun _ _ ↦ 0#8) 54512).map Prod.fst =
      some ⟨9, 4227858442, 67108863, 6080, 6016, 56⟩ ∧
    ∀ filled, ¬ SegmentsExact 54512 (some fun _ ↦ 1#8) ⟨9, 4227858442, 67108863, 6080, 6016, 56⟩ filled := by
  have hsizes : sizes 54512 = some ⟨9, 4227858442, 67108863, 6080, 6016, 56⟩ := by decide
  refine ⟨by rw [lte_segmentation, hsizes]; rfl, ?_⟩
  intro filled hexact
  have hcap := hexact.1.capacity
  revert hcap
  decide

end EdgeSlice.Coding.LteSegmentation
