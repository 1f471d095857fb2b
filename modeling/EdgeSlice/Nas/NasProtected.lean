import EdgeSlice.Nas.NasMessage
import EdgeSlice.SplitCounter
import Mathlib.Tactic.NormNum

namespace EdgeSlice.Nas

namespace Count

variable {k j : ℕ}

/-- The two fields that show a counter. -/
def ofSplit (c : SplitCounter) : Count := ⟨UInt16.ofNat c.high, UInt8.ofNat c.low⟩

/-- The count that is reached with `k` messages from the start. -/
def ofNat (k : ℕ) : Count := ofSplit (SplitCounter.ofNat 256 k)

/-- The number of messages that a count shows. -/
def number (c : Count) : ℕ := 256 * c.overflow.toNat + c.seqNum.toNat

theorem ofNat_number (c : Count) : ofNat c.number = c := by
  obtain ⟨overflow, seqNum⟩ := c
  have hlow : seqNum.toNat < 256 := seqNum.toNat_lt
  simp only [ofNat, number, SplitCounter.ofNat_mul_add hlow, ofSplit]
  simp

theorem seqNum_ofNat (k : ℕ) : (ofNat k).seqNum = UInt8.ofNat (k % 256) := rfl

theorem increment_ofSplit {c : SplitCounter} (h : c.low < 256) :
    (ofSplit c).increment = ofSplit (c.bump 256) := by
  obtain ⟨high, low⟩ := c
  have hnext : UInt8.ofNat low + 1 = 0 ↔ low + 1 = 256 := by
    rw [← UInt8.toNat_inj, UInt8.toNat_add, UInt8.toNat_ofNat']
    simp only [UInt8.toNat_one, UInt8.toNat_zero] at h ⊢
    omega
  simp only [increment, ofSplit, SplitCounter.bump, hnext]
  split
  · rename_i hlast
    simp [hnext.mpr hlast]
  · simp

theorem advance_ofSplit {c : SplitCounter} {low : ℕ} (h : c.low < 256) (hlow : low < 256) :
    (ofSplit c).advance (UInt8.ofNat low) = ofSplit (c.resume low) := by
  have hgt : (ofSplit c).seqNum > UInt8.ofNat low ↔ low < c.low := by
    rw [gt_iff_lt, UInt8.lt_iff_toNat_lt]
    simp only [ofSplit, UInt8.toNat_ofNat']
    omega
  simp only [advance, hgt, SplitCounter.resume]
  split
  · simp [ofSplit]
  · rfl

theorem increment_ofNat (k : ℕ) : (ofNat k).increment = ofNat (k + 1) := by
  rw [ofNat, increment_ofSplit (Nat.mod_lt k (by decide)), SplitCounter.bump_ofNat (by decide)]
  rfl

/-- The sequence number of a message is enough to know its count. -/
theorem advance_ofNat (hk : k ≤ j) (hj : j < k + 256) :
    (ofNat k).advance (ofNat j).seqNum = ofNat j := by
  have hlow : j % 256 < 256 := Nat.mod_lt j (by decide)
  rw [seqNum_ofNat, ofNat, advance_ofSplit (Nat.mod_lt k (by decide)) hlow,
    SplitCounter.resume_ofNat (by decide) hk hj]
  rfl

theorem value_toNat (c : Count) : c.value.toNat = c.number := by
  have hoverflow : c.overflow.toNat < 65536 := c.overflow.toNat_lt
  have hseqNum : c.seqNum.toNat < 256 := c.seqNum.toNat_lt
  have hmask : ∀ n, n &&& 65535 = n % 65536 := fun n ↦ Nat.and_two_pow_sub_one_eq_mod n 16
  have hmask' : ∀ n, n &&& 255 = n % 256 := fun n ↦ Nat.and_two_pow_sub_one_eq_mod n 8
  have hfit : c.overflow.toNat <<< 8 % 4294967296 = c.overflow.toNat <<< 8 := by
    rw [Nat.shiftLeft_eq]
    omega
  simp only [value, number, UInt32.toNat_or, UInt32.toNat_shiftLeft, UInt32.toNat_and,
    UInt16.toNat_toUInt32, UInt8.toNat_toUInt32, UInt32.toNat_ofNat, Nat.reducePow, Nat.reduceMod,
    hmask, hmask', Nat.zero_or, Nat.mod_eq_of_lt hoverflow, Nat.mod_eq_of_lt hseqNum, hfit]
  rw [← Nat.shiftLeft_add_eq_or_of_lt hseqNum, Nat.shiftLeft_eq, Nat.mul_comm]

theorem value_ofNat (k : ℕ) : (ofNat k).value.toNat = k % 2 ^ 24 := by
  rw [value_toNat]
  simp only [number, ofNat, ofSplit, SplitCounter.ofNat, UInt16.toNat_ofNat', UInt8.toNat_ofNat']
  omega

end Count

end EdgeSlice.Nas

/-! What the functions of the security protection do with a message that is ciphered. -/

namespace EdgeSlice.Nas

variable {build : Build} {nasStream : NasStream} {security : EmmSecurityContext}
  {direction : SecuDirection} {c : Count}

namespace EmmSecurityContext

@[simp] theorem count_setCount : (security.setCount direction c).count direction = c := by
  cases direction <;> rfl

@[simp] theorem setCount_encryption :
    (security.setCount direction c).encryption = security.encryption := by
  cases direction <;> rfl

@[simp] theorem setCount_integrity :
    (security.setCount direction c).integrity = security.integrity := by
  cases direction <;> rfl

@[simp] theorem setCount_knasEnc : (security.setCount direction c).knasEnc = security.knasEnc := by
  cases direction <;> rfl

@[simp] theorem setCount_knasInt : (security.setCount direction c).knasInt = security.knasInt := by
  cases direction <;> rfl

@[simp] theorem setCount_count : security.setCount direction (security.count direction) = security := by
  cases direction <;> rfl

/-- The sender's side of the three ciphering algorithms. -/
def cipher (security : EmmSecurityContext) (nasStream : NasStream) (direction : SecuDirection)
    (plain : List UInt8) : List UInt8 :=
  let streamCipher := security.streamCipher security.knasEnc direction
  if security.encryption = NAS_SECURITY_ALGORITHMS_EEA1 then
    xorStream (nasStream.eea1 streamCipher) plain.length plain
  else if security.encryption = NAS_SECURITY_ALGORITHMS_EEA2 then
    xorStream (nasStream.eea2 streamCipher) plain.length plain
  else plain

/-- The receiver's side. -/
def decipher (security : EmmSecurityContext) (nasStream : NasStream) (direction : SecuDirection)
    (ciphered : List UInt8) : List UInt8 :=
  let streamCipher := security.streamCipher security.knasEnc direction
  if security.encryption = NAS_SECURITY_ALGORITHMS_EEA1 ∨
      security.encryption = NAS_SECURITY_ALGORITHMS_EEA2 then
    xorStream (nasStream.eea1 streamCipher) ciphered.length ciphered
  else ciphered

@[simp] theorem cipher_length (plain : List UInt8) :
    (security.cipher nasStream direction plain).length = plain.length := by
  unfold cipher
  split_ifs <;> simp

@[simp] theorem decipher_length (ciphered : List UInt8) :
    (security.decipher nasStream direction ciphered).length = ciphered.length := by
  unfold decipher
  split_ifs <;> simp

end EmmSecurityContext

@[simp] theorem memcpy_length (dest src : List UInt8) :
    memcpy dest src src.length = src ++ dest.drop src.length := by
  rw [memcpy, List.take_length]

/-- The header of a message that is integrity protected and ciphered. -/
def cypheredHeader (code : UInt32) (sequenceNumber : UInt8) : NasMessageSecurityHeader :=
  ⟨EPS_MOBILITY_MANAGEMENT_MESSAGE, SECURITY_HEADER_TYPE_INTEGRITY_PROTECTED_CYPHERED, code,
    sequenceNumber⟩

/-- A message on its way. -/
def octets (code : UInt32) (sequenceNumber : UInt8) (ciphered : List UInt8) : List UInt8 :=
  0x27 :: beBytes 4 code.toNat ++ sequenceNumber :: ciphered

variable {code : UInt32} {sequenceNumber : UInt8} {plain ciphered outbuf : List UInt8}
  {header : NasMessageSecurityHeader}

theorem octets_length : (octets code sequenceNumber ciphered).length = 6 + ciphered.length := by
  simp only [octets, List.length_append, List.length_cons, beBytes_length]
  omega

theorem octets_drop_five : (octets code sequenceNumber ciphered).drop 5 = sequenceNumber :: ciphered := by
  apply List.drop_left'
  rw [List.length_cons, beBytes_length]

theorem octets_drop_six : (octets code sequenceNumber ciphered).drop 6 = ciphered := by
  have hdrop : (octets code sequenceNumber ciphered).drop 6 =
      ((octets code sequenceNumber ciphered).drop 5).drop 1 := by rw [List.drop_drop]
  rw [hdrop, octets_drop_five, List.drop_one, List.tail_cons]

theorem headerDecode_octets :
    _nasMessageHeaderDecode (octets code sequenceNumber ciphered) header =
      (6, cypheredHeader code sequenceNumber) := by
  have hfirst : (octets code sequenceNumber ciphered).getD 0 0 = 0x27 := rfl
  have hcode : ((octets code sequenceNumber ciphered).drop 1).take 4 = beBytes 4 code.toNat := by
    apply List.take_left'
    exact beBytes_length 4 _
  have hvalue : UInt32.ofNat (beValue (beBytes 4 code.toNat)) = code := by
    rw [beValue_beBytes code.toNat_lt, UInt32.ofNat_toNat]
  have hseq : (octets code sequenceNumber ciphered).getD 5 0 = sequenceNumber := by
    have hhead : (octets code sequenceNumber ciphered)[5]? = some sequenceNumber := by
      rw [← List.head?_drop, octets_drop_five, List.head?_cons]
    rw [List.getD_eq_getElem?_getD, hhead, Option.getD_some]
  have hlength : ¬(octets code sequenceNumber ciphered).length < NAS_MESSAGE_SECURITY_HEADER_SIZE := by
    rw [octets_length, NAS_MESSAGE_SECURITY_HEADER_SIZE]
    omega
  unfold _nasMessageHeaderDecode
  simp only [hfirst, hcode, hvalue, hseq, if_neg hlength]
  rfl

theorem encrypt_eq (h : security.encryption = NAS_SECURITY_ALGORITHMS_EEA0 ∨
      security.encryption = NAS_SECURITY_ALGORITHMS_EEA1 ∨
      security.encryption = NAS_SECURITY_ALGORITHMS_EEA2) (dest : List UInt8) :
    _nasMessageEncrypt nasStream dest plain SECURITY_HEADER_TYPE_INTEGRITY_PROTECTED_CYPHERED
        direction plain.length (some security) =
      ((plain.length : ℤ),
        security.cipher nasStream direction plain ++ dest.drop plain.length) := by
  have hcopy : ∀ ks : ℕ → UInt8, memcpy dest (xorStream ks plain.length plain) plain.length =
      xorStream ks plain.length plain ++ dest.drop plain.length := fun ks ↦ by
    rw [memcpy, List.take_of_length_le (xorStream_length ks _ plain).le]
  unfold _nasMessageEncrypt EmmSecurityContext.cipher
  rcases h with h | h | h
  · simp [h, SECURITY_HEADER_TYPE_INTEGRITY_PROTECTED_CYPHERED, SECURITY_HEADER_TYPE_NOT_PROTECTED,
      SECURITY_HEADER_TYPE_SERVICE_REQUEST, SECURITY_HEADER_TYPE_INTEGRITY_PROTECTED,
      SECURITY_HEADER_TYPE_INTEGRITY_PROTECTED_NEW, NAS_SECURITY_ALGORITHMS_EEA0,
      NAS_SECURITY_ALGORITHMS_EEA1, NAS_SECURITY_ALGORITHMS_EEA2]
  · simp [h, hcopy, SECURITY_HEADER_TYPE_INTEGRITY_PROTECTED_CYPHERED,
      SECURITY_HEADER_TYPE_NOT_PROTECTED, SECURITY_HEADER_TYPE_SERVICE_REQUEST,
      SECURITY_HEADER_TYPE_INTEGRITY_PROTECTED, SECURITY_HEADER_TYPE_INTEGRITY_PROTECTED_NEW]
  · simp [h, hcopy, SECURITY_HEADER_TYPE_INTEGRITY_PROTECTED_CYPHERED,
      SECURITY_HEADER_TYPE_NOT_PROTECTED, SECURITY_HEADER_TYPE_SERVICE_REQUEST,
      SECURITY_HEADER_TYPE_INTEGRITY_PROTECTED, SECURITY_HEADER_TYPE_INTEGRITY_PROTECTED_NEW,
      NAS_SECURITY_ALGORITHMS_EEA1, NAS_SECURITY_ALGORITHMS_EEA2]

theorem decrypt_eq (dest : List UInt8) :
    _nasMessageDecrypt build nasStream dest ciphered
        SECURITY_HEADER_TYPE_INTEGRITY_PROTECTED_CYPHERED ciphered.length (some security) =
      let dest := security.decipher nasStream build.receives ciphered ++ dest.drop ciphered.length
      some (dest.getD 0 0 &&& 0x0F, dest) := by
  have hcopy : ∀ ks : ℕ → UInt8, memcpy dest (xorStream ks ciphered.length ciphered) ciphered.length =
      xorStream ks ciphered.length ciphered ++ dest.drop ciphered.length := fun ks ↦ by
    rw [memcpy, List.take_of_length_le (xorStream_length ks _ ciphered).le]
  unfold _nasMessageDecrypt EmmSecurityContext.decipher
  simp only [SECURITY_HEADER_TYPE_INTEGRITY_PROTECTED_CYPHERED, SECURITY_HEADER_TYPE_NOT_PROTECTED,
    SECURITY_HEADER_TYPE_SERVICE_REQUEST, SECURITY_HEADER_TYPE_INTEGRITY_PROTECTED,
    SECURITY_HEADER_TYPE_INTEGRITY_PROTECTED_NEW, hcopy, memcpy_length]
  by_cases h1 : security.encryption = NAS_SECURITY_ALGORITHMS_EEA1
  · simp [h1]
  · by_cases h2 : security.encryption = NAS_SECURITY_ALGORITHMS_EEA2
    · simp [h2]
    · simp [h1, h2]

/-- The sender's step. -/
theorem nasMessageEncrypt_eq (h : security.encryption = NAS_SECURITY_ALGORITHMS_EEA0 ∨
      security.encryption = NAS_SECURITY_ALGORITHMS_EEA1 ∨
      security.encryption = NAS_SECURITY_ALGORITHMS_EEA2) (hplain : plain ≠ []) :
    nasMessageEncrypt build nasStream plain outbuf (cypheredHeader code sequenceNumber)
        (plain.length + 6) (some security) =
      let ciphered := security.cipher nasStream build.sends plain
      let mac := _nasMessageGetMac build nasStream (sequenceNumber :: ciphered) build.sends
        (some security)
      some ⟨6 + plain.length, octets mac sequenceNumber ciphered ++ outbuf.drop (6 + plain.length),
        some (security.setCount build.sends (security.count build.sends).increment)⟩ := by
  have hheader : _nasMessageHeaderEncode (cypheredHeader code sequenceNumber) (plain.length + 6) =
      (6, 0x27 :: beBytes 4 code.toNat ++ [sequenceNumber]) := by
    have hlength : ¬plain.length + 6 < NAS_MESSAGE_SECURITY_HEADER_SIZE := by
      rw [NAS_MESSAGE_SECURITY_HEADER_SIZE]
      omega
    unfold _nasMessageHeaderEncode
    simp only [cypheredHeader, if_neg hlength]
    rfl
  have hsize : (0x27 :: beBytes 4 code.toNat ++ [sequenceNumber]).length = 6 := by
    rw [List.length_append, List.length_cons, beBytes_length, List.length_singleton]
  have hlast : (0x27 :: beBytes 4 code.toNat ++ [sequenceNumber]).drop 5 = [sequenceNumber] := by
    apply List.drop_left'
    rw [List.length_cons, beBytes_length]
  have hpos : (0 : ℤ) < plain.length := by
    exact_mod_cast List.length_pos_iff.mpr hplain
  have htake : (security.cipher nasStream build.sends plain ++
      (outbuf.drop 6).drop plain.length).take plain.length =
        security.cipher nasStream build.sends plain :=
    List.take_left' (EmmSecurityContext.cipher_length plain)
  have hneg : ¬(plain.length : ℤ) < 0 := hpos.le.not_gt
  unfold nasMessageEncrypt
  simp only [hheader, hsize, hlast, Nat.add_sub_cancel]
  simp only [cypheredHeader, encrypt_eq h, Int.toNat_natCast, htake, hpos, if_true]
  simp [octets, hneg, List.drop_drop]

/-- The receiver's step. -/
theorem nasMessageDecrypt_eq :
    nasMessageDecrypt build nasStream (octets code sequenceNumber ciphered) outbuf header
        (some security) =
      let security' := advanceCount build sequenceNumber security
      let dest := security'.decipher nasStream build.receives ciphered ++ outbuf.drop ciphered.length
      let mac := _nasMessageGetMac build nasStream (sequenceNumber :: ciphered) build.receives
        (some security')
      if mac = code ∨ build.nasMme = false ∧ security'.integrity = NAS_SECURITY_ALGORITHMS_EIA0 then
        some ⟨ciphered.length, dest,
          { cypheredHeader code sequenceNumber with
            protocolDiscriminator := dest.getD 0 0 &&& 0x0F }, some security'⟩
      else
        some ⟨TLV_DECODE_MAC_MISMATCH, outbuf, cypheredHeader code sequenceNumber, some security'⟩ := by
  have hlength : (octets code sequenceNumber ciphered).length - 6 = ciphered.length := by
    rw [octets_length, Nat.add_sub_cancel_left]
  have hlength' : ((octets code sequenceNumber ciphered).length : ℤ) - 6 = ciphered.length := by
    rw [octets_length]
    omega
  unfold nasMessageDecrypt
  simp only [headerDecode_octets, octets_drop_five, octets_drop_six, hlength, hlength',
    Option.map_some, Option.bind_some]
  simp only [cypheredHeader, decrypt_eq, Option.map_some]
  by_cases hmac : _nasMessageGetMac build nasStream (sequenceNumber :: ciphered) build.receives
      (some (advanceCount build sequenceNumber security)) = code
  · simp [hmac]
  · cases hmme : build.nasMme
    · by_cases hint : (advanceCount build sequenceNumber security).integrity =
          NAS_SECURITY_ALGORITHMS_EIA0
      · simp [hmac, hint]
      · simp [hmac, hint]
    · simp [hmac]

end EdgeSlice.Nas
