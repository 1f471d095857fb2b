import EdgeSlice.CountedLoop
import EdgeSlice.QuadraticPermutation

/-! The interleaver of the turbo code, and the tables that the decoders make of it. -/

namespace EdgeSlice.Coding

open CountedLoop Function QuadraticPermutation

theorem and_15 (n : ℕ) : n &&& 15 = n % 16 := Nat.and_two_pow_sub_one_eq_mod n 4

/-- `t_interleaver_codebook` -/
structure Codebook where
  nbBits : ℕ
  f1 : ℕ
  f2 : ℕ
  begIndex : ℕ
  deriving DecidableEq

def f1f2mat : List Codebook := [
  ⟨40, 3, 10, 0⟩, ⟨48, 7, 12, 40⟩, ⟨56, 19, 42, 88⟩, ⟨64, 7, 16, 144⟩, ⟨72, 7, 18, 208⟩, ⟨80, 11, 20, 280⟩,
  ⟨88, 5, 22, 360⟩, ⟨96, 11, 24, 448⟩, ⟨104, 7, 26, 544⟩, ⟨112, 41, 84, 648⟩, ⟨120, 103, 90, 760⟩,
  ⟨128, 15, 32, 880⟩, ⟨136, 9, 34, 1008⟩, ⟨144, 17, 108, 1144⟩, ⟨152, 9, 38, 1288⟩, ⟨160, 21, 120, 1440⟩,
  ⟨168, 101, 84, 1600⟩, ⟨176, 21, 44, 1768⟩, ⟨184, 57, 46, 1944⟩, ⟨192, 23, 48, 2128⟩, ⟨200, 13, 50, 2320⟩,
  ⟨208, 27, 52, 2520⟩, ⟨216, 11, 36, 2728⟩, ⟨224, 27, 56, 2944⟩, ⟨232, 85, 58, 3168⟩, ⟨240, 29, 60, 3400⟩,
  ⟨248, 33, 62, 3640⟩, ⟨256, 15, 32, 3888⟩, ⟨264, 17, 198, 4144⟩, ⟨272, 33, 68, 4408⟩, ⟨280, 103, 210, 4680⟩,
  ⟨288, 19, 36, 4960⟩, ⟨296, 19, 74, 5248⟩, ⟨304, 37, 76, 5544⟩, ⟨312, 19, 78, 5848⟩, ⟨320, 21, 120, 6160⟩,
  ⟨328, 21, 82, 6480⟩, ⟨336, 115, 84, 6808⟩, ⟨344, 193, 86, 7144⟩, ⟨352, 21, 44, 7488⟩, ⟨360, 133, 90, 7840⟩,
  ⟨368, 81, 46, 8200⟩, ⟨376, 45, 94, 8568⟩, ⟨384, 23, 48, 8944⟩, ⟨392, 243, 98, 9328⟩, ⟨400, 151, 40, 9720⟩,
  ⟨408, 155, 102, 10120⟩, ⟨416, 25, 52, 10528⟩, ⟨424, 51, 106, 10944⟩, ⟨432, 47, 72, 11368⟩, ⟨440, 91, 110, 11800⟩,
  ⟨448, 29, 168, 12240⟩, ⟨456, 29, 114, 12688⟩, ⟨464, 247, 58, 13144⟩, ⟨472, 29, 118, 13608⟩, ⟨480, 89, 180, 14080⟩,
  ⟨488, 91, 122, 14560⟩, ⟨496, 157, 62, 15048⟩, ⟨504, 55, 84, 15544⟩, ⟨512, 31, 64, 16048⟩, ⟨528, 17, 66, 16560⟩,
  ⟨544, 35, 68, 17088⟩, ⟨560, 227, 420, 17632⟩, ⟨576, 65, 96, 18192⟩, ⟨592, 19, 74, 18768⟩, ⟨608, 37, 76, 19360⟩,
  ⟨624, 41, 234, 19968⟩, ⟨640, 39, 80, 20592⟩, ⟨656, 185, 82, 21232⟩, ⟨672, 43, 252, 21888⟩, ⟨688, 21, 86, 22560⟩,
  ⟨704, 155, 44, 23248⟩, ⟨720, 79, 120, 23952⟩, ⟨736, 139, 92, 24672⟩, ⟨752, 23, 94, 25408⟩, ⟨768, 217, 48, 26160⟩,
  ⟨784, 25, 98, 26928⟩, ⟨800, 17, 80, 27712⟩, ⟨816, 127, 102, 28512⟩, ⟨832, 25, 52, 29328⟩, ⟨848, 239, 106, 30160⟩,
  ⟨864, 17, 48, 31008⟩, ⟨880, 137, 110, 31872⟩, ⟨896, 215, 112, 32752⟩, ⟨912, 29, 114, 33648⟩, ⟨928, 15, 58, 34560⟩,
  ⟨944, 147, 118, 35488⟩, ⟨960, 29, 60, 36432⟩, ⟨976, 59, 122, 37392⟩, ⟨992, 65, 124, 38368⟩, ⟨1008, 55, 84, 39360⟩,
  ⟨1024, 31, 64, 40368⟩, ⟨1056, 17, 66, 41392⟩, ⟨1088, 171, 204, 42448⟩, ⟨1120, 67, 140, 43536⟩,
  ⟨1152, 35, 72, 44656⟩, ⟨1184, 19, 74, 45808⟩, ⟨1216, 39, 76, 46992⟩, ⟨1248, 19, 78, 48208⟩,
  ⟨1280, 199, 240, 49456⟩, ⟨1312, 21, 82, 50736⟩, ⟨1344, 211, 252, 52048⟩, ⟨1376, 21, 86, 53392⟩,
  ⟨1408, 43, 88, 54768⟩, ⟨1440, 149, 60, 56176⟩, ⟨1472, 45, 92, 57616⟩, ⟨1504, 49, 846, 59088⟩,
  ⟨1536, 71, 48, 60592⟩, ⟨1568, 13, 28, 62128⟩, ⟨1600, 17, 80, 63696⟩, ⟨1632, 25, 102, 65296⟩,
  ⟨1664, 183, 104, 66928⟩, ⟨1696, 55, 954, 68592⟩, ⟨1728, 127, 96, 70288⟩, ⟨1760, 27, 110, 72016⟩,
  ⟨1792, 29, 112, 73776⟩, ⟨1824, 29, 114, 75568⟩, ⟨1856, 57, 116, 77392⟩, ⟨1888, 45, 354, 79248⟩,
  ⟨1920, 31, 120, 81136⟩, ⟨1952, 59, 610, 83056⟩, ⟨1984, 185, 124, 85008⟩, ⟨2016, 113, 420, 86992⟩,
  ⟨2048, 31, 64, 89008⟩, ⟨2112, 17, 66, 91056⟩, ⟨2176, 171, 136, 93168⟩, ⟨2240, 209, 420, 95344⟩,
  ⟨2304, 253, 216, 97584⟩, ⟨2368, 367, 444, 99888⟩, ⟨2432, 265, 456, 102256⟩, ⟨2496, 181, 468, 104688⟩,
  ⟨2560, 39, 80, 107184⟩, ⟨2624, 27, 164, 109744⟩, ⟨2688, 127, 504, 112368⟩, ⟨2752, 143, 172, 115056⟩,
  ⟨2816, 43, 88, 117808⟩, ⟨2880, 29, 300, 120624⟩, ⟨2944, 45, 92, 123504⟩, ⟨3008, 157, 188, 126448⟩,
  ⟨3072, 47, 96, 129456⟩, ⟨3136, 13, 28, 132528⟩, ⟨3200, 111, 240, 135664⟩, ⟨3264, 443, 204, 138864⟩,
  ⟨3328, 51, 104, 142128⟩, ⟨3392, 51, 212, 145456⟩, ⟨3456, 451, 192, 148848⟩, ⟨3520, 257, 220, 152304⟩,
  ⟨3584, 57, 336, 155824⟩, ⟨3648, 313, 228, 159408⟩, ⟨3712, 271, 232, 163056⟩, ⟨3776, 179, 236, 166768⟩,
  ⟨3840, 331, 120, 170544⟩, ⟨3904, 363, 244, 174384⟩, ⟨3968, 375, 248, 178288⟩, ⟨4032, 127, 168, 182256⟩,
  ⟨4096, 31, 64, 186288⟩, ⟨4160, 33, 130, 190384⟩, ⟨4224, 43, 264, 194544⟩, ⟨4288, 33, 134, 198768⟩,
  ⟨4352, 477, 408, 203056⟩, ⟨4416, 35, 138, 207408⟩, ⟨4480, 233, 280, 211824⟩, ⟨4544, 357, 142, 216304⟩,
  ⟨4608, 337, 480, 220848⟩, ⟨4672, 37, 146, 225456⟩, ⟨4736, 71, 444, 230128⟩, ⟨4800, 71, 120, 234864⟩,
  ⟨4864, 37, 152, 239664⟩, ⟨4928, 39, 462, 244528⟩, ⟨4992, 127, 234, 249456⟩, ⟨5056, 39, 158, 254448⟩,
  ⟨5120, 39, 80, 259504⟩, ⟨5184, 31, 96, 264624⟩, ⟨5248, 113, 902, 269808⟩, ⟨5312, 41, 166, 275056⟩,
  ⟨5376, 251, 336, 280368⟩, ⟨5440, 43, 170, 285744⟩, ⟨5504, 21, 86, 291184⟩, ⟨5568, 43, 174, 296688⟩,
  ⟨5632, 45, 176, 302256⟩, ⟨5696, 45, 178, 307888⟩, ⟨5760, 161, 120, 313584⟩, ⟨5824, 89, 182, 319344⟩,
  ⟨5888, 323, 184, 325168⟩, ⟨5952, 47, 186, 331056⟩, ⟨6016, 23, 94, 337008⟩, ⟨6080, 47, 190, 343024⟩,
  ⟨6144, 263, 480, 349104⟩]

namespace Codebook

variable (r : Codebook)

def interleaved (i : ℕ) : ℕ := quadratic r.f1 r.f2 r.nbBits i

/-- What `il_tb` holds: the values of the polynomials, one row of `f1f2mat` behind the other. -/
def Tabulated (ilTb : ℕ → ℕ) : Prop := ∀ r ∈ f1f2mat, ∀ i < r.nbBits, ilTb (r.begIndex + i) = r.interleaved i

/-- What the polynomial of a row needs for a permutation, and where the next row begins. -/
structure Valid : Prop where
  coprime : r.f1.Coprime r.nbBits
  dvd_pow : r.nbBits ∣ r.f2 ^ 13
  eight_dvd : r.nbBits % 8 = 0
  pos : 0 < r.nbBits
  le : r.nbBits ≤ 6144
  f1_le : r.f1 < 1024
  f2_pos : 0 < r.f2
  f2_le : r.f2 < 1024
  next : r.nbBits % 16 ≠ 0 → ∃ r' ∈ f1f2mat, r'.nbBits = r.nbBits + 8 ∧ r'.begIndex = r.begIndex + r.nbBits

theorem valid : ∀ r ∈ f1f2mat, r.Valid := by
  have hall : ∀ r ∈ f1f2mat, r.f1.Coprime r.nbBits ∧ r.nbBits ∣ r.f2 ^ 13 ∧ r.nbBits % 8 = 0 ∧ 0 < r.nbBits ∧
      r.nbBits ≤ 6144 ∧ r.f1 < 1024 ∧ 0 < r.f2 ∧ r.f2 < 1024 ∧ (r.nbBits % 16 ≠ 0 →
        ∃ r' ∈ f1f2mat, r'.nbBits = r.nbBits + 8 ∧ r'.begIndex = r.begIndex + r.nbBits) := by
    decide +kernel
  intro r hr
  obtain ⟨hcop, hdvd, height, hpos, hle, hf1, hf2, hf2', hnext⟩ := hall r hr
  exact ⟨hcop, hdvd, height, hpos, hle, hf1, hf2, hf2', hnext⟩

/-- The table itself: the row in which an index lies, and the value of its polynomial. -/
def ilTb (i : ℕ) : ℕ :=
  match f1f2mat.find? fun r ↦ i < r.begIndex + r.nbBits with
  | some r => r.interleaved (i - r.begIndex)
  | none => 0

theorem tabulated_ilTb : Tabulated ilTb := by
  have hchain : f1f2mat.IsChain fun r r' ↦ r.begIndex + r.nbBits ≤ r'.begIndex := by decide +kernel
  have htrans : ∀ {r r' r'' : Codebook}, r.begIndex + r.nbBits ≤ r'.begIndex → r'.begIndex + r'.nbBits ≤ r''.begIndex →
      r.begIndex + r.nbBits ≤ r''.begIndex := by
    intro r r' r'' h h'
    omega
  have : Trans (fun r r' : Codebook ↦ r.begIndex + r.nbBits ≤ r'.begIndex)
      (fun r r' : Codebook ↦ r.begIndex + r.nbBits ≤ r'.begIndex)
      (fun r r' : Codebook ↦ r.begIndex + r.nbBits ≤ r'.begIndex) := ⟨htrans⟩
  have hpairs := hchain.pairwise
  intro r hr i hi
  obtain ⟨before, after, hsplit⟩ := List.append_of_mem hr
  have hfind : f1f2mat.find? (fun r' ↦ r.begIndex + i < r'.begIndex + r'.nbBits) = some r := by
    apply List.find?_eq_some_iff_append.mpr
    refine ⟨decide_eq_true (Nat.add_lt_add_left hi _), before, after, hsplit, ?_⟩
    intro r' hr'
    rw [hsplit, List.pairwise_append] at hpairs
    have hearlier := hpairs.2.2 r' hr' r List.mem_cons_self
    rw [Bool.not_eq_true', decide_eq_false_iff_not]
    omega
  rw [ilTb, hfind]
  dsimp only
  rw [Nat.add_sub_cancel_left]

variable {r}

theorem Valid.bijOn (h : r.Valid) : Set.BijOn r.interleaved (Set.Iio r.nbBits) (Set.Iio r.nbBits) :=
  QuadraticPermutation.bijOn h.coprime (dvd_of_dvd_pow h.dvd_pow)

end Codebook

/-- `threegpplte_interleaver_output` and `threegpplte_interleaver_tmp` -/
structure Interleaver where
  output : UInt32
  tmp : UInt32

namespace Interleaver

def threegpplteInterleaverReset : Interleaver := ⟨0, 0⟩

def threegpplteInterleaver (f1 f2 K : UInt16) (s : Interleaver) : Interleaver :=
  let tmp := s.tmp + f2.toUInt32 <<< 1
  ⟨(s.output + tmp + f1.toUInt32 - f2.toUInt32) % K.toUInt32, tmp⟩

variable {r : Codebook}

theorem threegpplteInterleaver_step (h : r.Valid) {s : Interleaver} {i : ℕ} (hi : i < r.nbBits)
    (houtput : s.output.toNat = r.interleaved i) (htmp : s.tmp.toNat = 2 * r.f2 * i) :
    (threegpplteInterleaver (.ofNat r.f1) (.ofNat r.f2) (.ofNat r.nbBits) s).output.toNat = r.interleaved (i + 1) ∧
      (threegpplteInterleaver (.ofNat r.f1) (.ofNat r.f2) (.ofNat r.nbBits) s).tmp.toNat = 2 * r.f2 * (i + 1) := by
  have hf1 := h.f1_le
  have hf2 := h.f2_le
  have hle := h.le
  have hout : r.interleaved i < r.nbBits := quadratic_lt h.pos r.f1 r.f2 i
  have hprod : r.f2 * i ≤ 1023 * 6144 := Nat.mul_le_mul (by omega) (by omega)
  have hdouble : 2 * r.f2 * (i + 1) = 2 * (r.f2 * i) + 2 * r.f2 := by ring
  have hodd : r.f2 * (2 * i + 1) = 2 * (r.f2 * i) + r.f2 := by ring
  have hsize : UInt16.size = 65536 := rfl
  have hnext : r.interleaved (i + 1) = (r.interleaved i + (r.f1 + r.f2 * (2 * i + 1))) % r.nbBits :=
    quadratic_succ _ _ _ _
  have hf1' : (UInt16.ofNat r.f1).toUInt32.toNat = r.f1 := by
    rw [UInt16.toNat_toUInt32, UInt16.toNat_ofNat_of_lt' (by omega)]
  have hf2' : (UInt16.ofNat r.f2).toUInt32.toNat = r.f2 := by
    rw [UInt16.toNat_toUInt32, UInt16.toNat_ofNat_of_lt' (by omega)]
  have hK : (UInt16.ofNat r.nbBits).toUInt32.toNat = r.nbBits := by
    rw [UInt16.toNat_toUInt32, UInt16.toNat_ofNat_of_lt' (by omega)]
  have hshift : ((UInt16.ofNat r.f2).toUInt32 <<< 1).toNat = 2 * r.f2 := by
    have hone : (1 : UInt32).toNat % 32 = 1 := rfl
    rw [UInt32.toNat_shiftLeft, hf2', hone, Nat.shiftLeft_eq]
    omega
  have htmp' : (s.tmp + (UInt16.ofNat r.f2).toUInt32 <<< 1).toNat = 2 * r.f2 * (i + 1) := by
    rw [UInt32.toNat_add, htmp, hshift, hdouble, Nat.mul_assoc]
    omega
  refine ⟨?_, htmp'⟩
  rw [threegpplteInterleaver]
  dsimp only
  rw [UInt32.toNat_mod, UInt32.toNat_sub, UInt32.toNat_add, UInt32.toNat_add, htmp', houtput, hf1', hf2', hK,
    hnext, hodd, hdouble]
  congr 1
  omega

/-- As many calls after a reset as a block has bits give the values of the polynomial, and no counter overflows. -/
theorem iterate_threegpplteInterleaver (hr : r ∈ f1f2mat) {i : ℕ} (hi : i ≤ r.nbBits) :
    ((threegpplteInterleaver (.ofNat r.f1) (.ofNat r.f2) (.ofNat r.nbBits))^[i]
        threegpplteInterleaverReset).output.toNat = r.interleaved i ∧
      ((threegpplteInterleaver (.ofNat r.f1) (.ofNat r.f2) (.ofNat r.nbBits))^[i]
        threegpplteInterleaverReset).tmp.toNat = 2 * r.f2 * i := by
  induction i with
  | zero => exact ⟨(quadratic_zero _ _ _).symm, rfl⟩
  | succ i ih =>
    obtain ⟨houtput, htmp⟩ := ih (Nat.le_of_succ_le hi)
    rw [iterate_succ_apply']
    exact threegpplteInterleaver_step (Codebook.valid r hr) hi houtput htmp

end Interleaver

/-- The bit that the encoder takes at step `i` comes from one place each, and the interleaver that counts finds the
same places. -/
theorem interleaved_bijOn (r : Codebook) (hr : r ∈ f1f2mat) :
    Set.BijOn r.interleaved (Set.Iio r.nbBits) (Set.Iio r.nbBits) ∧ ∀ i ≤ r.nbBits,
      ((Interleaver.threegpplteInterleaver (.ofNat r.f1) (.ofNat r.f2) (.ofNat r.nbBits))^[i]
        Interleaver.threegpplteInterleaverReset).output.toNat = r.interleaved i :=
  ⟨(Codebook.valid r hr).bijOn, fun _ hi ↦ (Interleaver.iterate_threegpplteInterleaver hr hi).1⟩

/-- The first row. -/
def shortest : Codebook := ⟨40, 3, 10, 0⟩

theorem interleaved_bijOn_shortest :
    Set.BijOn shortest.interleaved (Set.Iio shortest.nbBits) (Set.Iio shortest.nbBits) ∧ ∀ i ≤ shortest.nbBits,
      ((Interleaver.threegpplteInterleaver (.ofNat shortest.f1) (.ofNat shortest.f2) (.ofNat shortest.nbBits))^[i]
        Interleaver.threegpplteInterleaverReset).output.toNat = shortest.interleaved i :=
  interleaved_bijOn shortest List.mem_cons_self

/-- The permutation `pi2` for `windows` windows, and the three tables that are made with it. -/
structure DecoderTables where
  pi2 : ℕ → ℕ
  pi4 : ℕ → ℕ
  pi5 : ℕ → ℕ
  pi6 : ℕ → ℕ

namespace DecoderTables

variable (t : DecoderTables) (base : ℕ → ℕ) (n : ℕ)

/-- The loop that both decoders have behind the one that fills `pi2`. -/
def fill : DecoderTables :=
  turns n (fun i t ↦
    let pi := base i
    let pi3 := t.pi2 pi
    { t with
      pi4 := update t.pi4 (t.pi2 i) pi3
      pi5 := update t.pi5 pi3 (t.pi2 i)
      pi6 := update t.pi6 pi (t.pi2 i) }) t

/-- A block of `init_td16`. -/
def initTd16 : DecoderTables :=
  ({ t with pi2 := columnWise 8 (n >>> 3) 8 (fun i2 ↦ i2) (fun i j pi2 ↦ update pi2 i j) t.pi2 }).fill base n

/-- A block of `init_td8`. -/
def initTd8 : DecoderTables :=
  let n2 := if n &&& 15 > 0 then n + 8 else n
  ({ t with pi2 := (turns n2 (fun i (pi2, j) ↦
      let j := if n2 ≤ j then j - (n2 - 1) else j
      (update pi2 i j, j + 16)) (t.pi2, 0)).1 }).fill base n2

/-- The tables agree with the interleaver on the bits of a block: `pi2` has a place for each bit, `pi4` leads to the
place of the bit that is taken for it, `pi5` leads back, and `pi6` leads back to the places from the bits. -/
structure Consistent (π : ℕ → ℕ) (n : ℕ) (t : DecoderTables) : Prop where
  injOn : Set.InjOn t.pi2 (Set.Iio n)
  pi4 : ∀ i < n, t.pi4 (t.pi2 i) = t.pi2 (π i)
  pi5 : ∀ i < n, t.pi5 (t.pi4 (t.pi2 i)) = t.pi2 i
  pi6 : ∀ i < n, t.pi6 (π i) = t.pi2 i

theorem fill_eq : t.fill base n = ⟨t.pi2, turns n (fun i f ↦ update f (t.pi2 i) (t.pi2 (base i))) t.pi4,
    turns n (fun i f ↦ update f (t.pi2 (base i)) (t.pi2 i)) t.pi5,
    turns n (fun i f ↦ update f (base i) (t.pi2 i)) t.pi6⟩ := by
  induction n with
  | zero => rfl
  | succ n ih =>
    rw [fill] at ih ⊢
    rw [turns_succ, ih, turns_succ, turns_succ, turns_succ]

variable {t base n} {π : ℕ → ℕ}

theorem fill_consistent (hpi2 : Set.InjOn t.pi2 (Set.Iio n)) (hbase : Set.BijOn base (Set.Iio n) (Set.Iio n)) :
    (t.fill base n).Consistent base n := by
  have hpi4 : ∀ i < n, (t.fill base n).pi4 (t.pi2 i) = t.pi2 (base i) := by
    intro i hi
    rw [fill_eq]
    exact turns_update_last _ hi rfl fun j hij hj h ↦ hij.ne' (hpi2 hj hi h)
  have hpi5 : ∀ i < n, (t.fill base n).pi5 (t.pi2 (base i)) = t.pi2 i := by
    intro i hi
    rw [fill_eq]
    apply turns_update_last _ hi rfl
    intro j hij hj h
    exact hij.ne' (hbase.injOn hj hi (hpi2 (hbase.mapsTo hj) (hbase.mapsTo hi) h))
  have hsame : (t.fill base n).pi2 = t.pi2 := by
    rw [fill_eq]
  constructor
  · rw [hsame]
    exact hpi2
  · rw [hsame]
    exact hpi4
  · intro i hi
    rw [hsame, hpi4 i hi, hpi5 i hi]
  · intro i hi
    rw [hsame, fill_eq]
    exact turns_update_last _ hi rfl fun j hij hj h ↦ hij.ne' (hbase.injOn hj hi h)

/-- The place of bit `i` if `w` windows of `m` bits are interleaved. -/
def windowed (w m i : ℕ) : ℕ := i / m + w * (i % m)

theorem windowed_injOn (w m : ℕ) : Set.InjOn (windowed w m) (Set.Iio (w * m)) := by
  intro i hi j hj h
  have hdiv : ∀ k < w * m, k / m < w := fun k hk ↦ Nat.div_lt_of_lt_mul (by rwa [Nat.mul_comm])
  have hmod : ∀ k < w * m, windowed w m k % w = k / m := by
    intro k hk
    rw [windowed, Nat.add_mul_mod_self_left, Nat.mod_eq_of_lt (hdiv k hk)]
  have hhigh : i / m = j / m := by
    rw [← hmod i hi, ← hmod j hj, h]
  have hlow : i % m = j % m := by
    rw [windowed, windowed, hhigh] at h
    have hw : 0 < w := Nat.lt_of_le_of_lt (Nat.zero_le _) (hdiv i hi)
    exact Nat.eq_of_mul_eq_mul_left hw (Nat.add_left_cancel h)
  rw [← Nat.div_add_mod i m, ← Nat.div_add_mod j m, hhigh, hlow]

theorem Consistent.congr (h : t.Consistent base n) (hbase : ∀ i < n, base i = π i) : t.Consistent π n where
  injOn := h.injOn
  pi4 i hi := by
    rw [h.pi4 i hi, hbase i hi]
  pi5 := h.pi5
  pi6 i hi := by
    rw [← hbase i hi]
    exact h.pi6 i hi

/-- The 16 bit decoder has the right tables for all block sizes. -/
theorem initTd16_consistent {ilTb : ℕ → ℕ} (htable : Codebook.Tabulated ilTb) (r : Codebook) (hr : r ∈ f1f2mat)
    (t : DecoderTables) :
    (t.initTd16 (fun i ↦ ilTb (r.begIndex + i)) r.nbBits).Consistent r.interleaved r.nbBits := by
  have hvalid := Codebook.valid r hr
  have height : 8 * (r.nbBits >>> 3) = r.nbBits := by
    have hdvd := hvalid.eight_dvd
    rw [Nat.shiftRight_eq_div_pow]
    omega
  have hpi2 : ∀ i < r.nbBits,
      columnWise 8 (r.nbBits >>> 3) 8 (fun i2 ↦ i2) (fun i j pi2 ↦ update pi2 i j) t.pi2 i =
        windowed 8 (r.nbBits >>> 3) i := by
    intro i hi
    rw [columnWise_eq, height, turns_update, if_pos hi]
    rfl
  have hbase : Set.EqOn (fun i ↦ ilTb (r.begIndex + i)) r.interleaved (Set.Iio r.nbBits) :=
    fun i hi ↦ htable r hr i hi
  apply (fill_consistent _ (hvalid.bijOn.congr hbase.symm)).congr hbase
  have hinj := windowed_injOn 8 (r.nbBits >>> 3)
  rw [height] at hinj
  exact hinj.congr fun i hi ↦ (hpi2 i hi).symm

theorem initTd16_consistent_shortest :
    (initTd16 ⟨id, id, id, id⟩ (fun i ↦ Codebook.ilTb (shortest.begIndex + i)) shortest.nbBits).Consistent
      shortest.interleaved shortest.nbBits :=
  initTd16_consistent Codebook.tabulated_ilTb shortest List.mem_cons_self _

theorem windowed_eq {w m q i : ℕ} (hi : i < m) : windowed w m (m * q + i) = q + w * i := by
  rw [windowed, Nat.mul_add_div (Nat.lt_of_le_of_lt (Nat.zero_le i) hi), Nat.div_eq_of_lt hi, Nat.mul_add_mod,
    Nat.mod_eq_of_lt hi, Nat.add_zero]

/-- From one place to the next: a window further, or back to the first window. -/
theorem windowed_succ {m k : ℕ} (hk : k < 16 * m) : windowed 16 m (k + 1) =
    if 16 * m ≤ windowed 16 m k + 16 then windowed 16 m k + 16 - (16 * m - 1) else windowed 16 m k + 16 := by
  have hm : 0 < m := by omega
  obtain ⟨q, i, hi, rfl⟩ : ∃ q i, i < m ∧ k = m * q + i :=
    ⟨k / m, k % m, Nat.mod_lt k hm, (Nat.div_add_mod k m).symm⟩
  have hq : q < 16 := by
    by_contra hq
    have hle := Nat.mul_le_mul_left m (Nat.le_of_not_lt hq)
    omega
  rw [windowed_eq hi]
  by_cases hlast : i + 1 = m
  · have hnext : m * q + i + 1 = m * (q + 1) + 0 := by
      rw [Nat.mul_succ]
      omega
    rw [hnext, windowed_eq hm, if_pos (by omega)]
    omega
  · rw [Nat.add_assoc, windowed_eq (by omega), if_neg (by omega)]
    omega

theorem turns_pi2 {m k : ℕ} (hk : k ≤ 16 * m) (pi2 : ℕ → ℕ) :
    turns k (fun i (pi2, j) ↦
      let j := if 16 * m ≤ j then j - (16 * m - 1) else j
      (update pi2 i j, j + 16)) (pi2, 0) =
      (turns k (fun i pi2 ↦ update pi2 i (windowed 16 m i)) pi2, if k = 0 then 0 else windowed 16 m (k - 1) + 16) := by
  induction k with
  | zero => rfl
  | succ k ih =>
    have hj : (if 16 * m ≤ (if k = 0 then 0 else windowed 16 m (k - 1) + 16) then
        (if k = 0 then 0 else windowed 16 m (k - 1) + 16) - (16 * m - 1)
        else if k = 0 then 0 else windowed 16 m (k - 1) + 16) = windowed 16 m k := by
      cases k with
      | zero => rw [if_pos rfl, if_neg (by omega), windowed, Nat.zero_div, Nat.zero_mod]
      | succ k => exact (windowed_succ (by omega)).symm
    rw [turns_succ, ih (Nat.le_of_succ_le hk), turns_succ]
    simp only [hj, if_neg (Nat.succ_ne_zero k), Nat.add_sub_cancel]

/-- What `init_td8` makes of the tables, for as many bits as it takes. -/
theorem initTd8_eq (t : DecoderTables) (base : ℕ → ℕ) {n m : ℕ} (hm : (if n &&& 15 > 0 then n + 8 else n) = 16 * m) :
    ∃ pi2, t.initTd8 base n = ({ t with pi2 := pi2 }).fill base (16 * m) ∧
      ∀ i < 16 * m, pi2 i = windowed 16 m i := by
  refine ⟨turns (16 * m) (fun i pi2 ↦ update pi2 i (windowed 16 m i)) t.pi2, ?_, ?_⟩
  · rw [initTd8, hm, turns_pi2 le_rfl]
  · intro i hi
    rw [turns_update, if_pos hi]

/-- The 8 bit decoder has the right tables for the block sizes that fill its windows. For the others it takes the first
eight values of the next block size too, which leads the first bit to a place behind the block. -/
theorem initTd8_consistent_iff {ilTb : ℕ → ℕ} (htable : Codebook.Tabulated ilTb) (r : Codebook) (hr : r ∈ f1f2mat)
    (t : DecoderTables) :
    (t.initTd8 (fun i ↦ ilTb (r.begIndex + i)) r.nbBits).Consistent r.interleaved r.nbBits ↔ r.nbBits % 16 = 0 := by
  have hvalid := Codebook.valid r hr
  have hpos := hvalid.pos
  have hbase : Set.EqOn (fun i ↦ ilTb (r.begIndex + i)) r.interleaved (Set.Iio r.nbBits) :=
    fun i hi ↦ htable r hr i hi
  constructor
  · intro h
    by_contra hpadded
    obtain ⟨r', hr', hnb, hbeg⟩ := hvalid.next hpadded
    have hvalid' := Codebook.valid r' hr'
    have hm : (if r.nbBits &&& 15 > 0 then r.nbBits + 8 else r.nbBits) = 16 * (r'.nbBits / 16) := by
      have hdvd := hvalid.eight_dvd
      rw [and_15, if_pos (Nat.pos_of_ne_zero hpadded)]
      omega
    obtain ⟨pi2, heq, hpi2⟩ := t.initTd8_eq (fun i ↦ ilTb (r.begIndex + i)) hm
    have hn2 : 16 * (r'.nbBits / 16) = r.nbBits + 8 := by
      rw [← hm, and_15, if_pos (Nat.pos_of_ne_zero hpadded)]
    have hinj : Set.InjOn pi2 (Set.Iio (16 * (r'.nbBits / 16))) :=
      (windowed_injOn 16 _).congr fun i hi ↦ (hpi2 i hi).symm
    have hlt0 : 0 < 16 * (r'.nbBits / 16) := by omega
    have hltn : r.nbBits < 16 * (r'.nbBits / 16) := by omega
    have hzero : pi2 0 = 0 := by
      rw [hpi2 0 hlt0, windowed, Nat.zero_div, Nat.zero_mod]
    have hfirst : ilTb (r.begIndex + 0) = 0 := (hbase hpos).trans (quadratic_zero _ _ _)
    have hnext : ∀ i < 8, ilTb (r.begIndex + (r.nbBits + i)) = r'.interleaved i := by
      intro i hi
      rw [← Nat.add_assoc, ← hbeg]
      exact htable r' hr' i (by omega)
    rw [heq] at h
    have hpi4 : (fill { t with pi2 := pi2 } (fun i ↦ ilTb (r.begIndex + i)) (16 * (r'.nbBits / 16))).pi4 0 = 0 := by
      have hlast := turns_update_last (v := fun i ↦ pi2 (ilTb (r.begIndex + i))) t.pi4 hlt0 hzero
        fun i hi hlt h ↦ hi.ne' (hinj hlt hlt0 (h.trans hzero.symm))
      rw [fill_eq]
      dsimp only
      rw [hlast, hfirst, hzero]
    have hpi5 : (fill { t with pi2 := pi2 } (fun i ↦ ilTb (r.begIndex + i)) (16 * (r'.nbBits / 16))).pi5 0 =
        pi2 r.nbBits := by
      rw [fill_eq]
      apply turns_update_last _ hltn
      · have hcollides := hnext 0 (by omega)
        rw [Nat.add_zero] at hcollides
        rw [hcollides, Codebook.interleaved, quadratic_zero]
        exact hzero
      · intro i hi hlt h
        obtain ⟨j, rfl⟩ := Nat.exists_eq_add_of_lt hi
        rw [Nat.add_assoc, hnext (j + 1) (by omega)] at h
        have hmaps : r'.interleaved (j + 1) < r'.nbBits := quadratic_lt hvalid'.pos _ _ _
        have hplace := hinj (by omega : r'.interleaved (j + 1) < 16 * (r'.nbBits / 16)) hlt0 (h.trans hzero.symm)
        have hback := hvalid'.bijOn.injOn (by omega : j + 1 < r'.nbBits) hvalid'.pos
          (hplace.trans (quadratic_zero _ _ _).symm)
        exact Nat.succ_ne_zero j hback
    have hround := h.pi5 0 hpos
    have hpi2' : (fill { t with pi2 := pi2 } (fun i ↦ ilTb (r.begIndex + i)) (16 * (r'.nbBits / 16))).pi2 0 = 0 := by
      rw [fill_eq]
      exact hzero
    rw [hpi2', hpi4, hpi5] at hround
    exact hpos.ne' (hinj hltn hlt0 (hround.trans hzero.symm))
  · intro hfull
    have hm : (if r.nbBits &&& 15 > 0 then r.nbBits + 8 else r.nbBits) = 16 * (r.nbBits / 16) := by
      rw [and_15, if_neg (by omega)]
      omega
    have hn : 16 * (r.nbBits / 16) = r.nbBits := by omega
    obtain ⟨pi2, heq, hpi2⟩ := t.initTd8_eq (fun i ↦ ilTb (r.begIndex + i)) hm
    rw [heq, hn]
    apply (fill_consistent _ (hvalid.bijOn.congr hbase.symm)).congr hbase
    have hinj := windowed_injOn 16 (r.nbBits / 16)
    rw [hn] at hinj hpi2
    exact hinj.congr fun i hi ↦ (hpi2 i hi).symm

theorem initTd8_consistent_iff_shortest :
    (initTd8 ⟨id, id, id, id⟩ (fun i ↦ Codebook.ilTb (shortest.begIndex + i)) shortest.nbBits).Consistent
      shortest.interleaved shortest.nbBits ↔ shortest.nbBits % 16 = 0 :=
  initTd8_consistent_iff Codebook.tabulated_ilTb shortest List.mem_cons_self _

end DecoderTables

end EdgeSlice.Coding
