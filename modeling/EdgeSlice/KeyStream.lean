import Mathlib.Data.List.Basic

namespace EdgeSlice

/-- A key stream on the first `n` bytes of a buffer. -/
def xorStream (ks : ℕ → UInt8) (n : ℕ) (bytes : List UInt8) : List UInt8 :=
  bytes.mapIdx fun i b ↦ if i < n then b ^^^ ks i else b

variable (ks : ℕ → UInt8) (n : ℕ) (bytes : List UInt8)

@[simp] theorem xorStream_length : (xorStream ks n bytes).length = bytes.length :=
  List.length_mapIdx

@[simp] theorem xorStream_zero : xorStream ks 0 bytes = bytes := by
  apply List.ext_getElem (xorStream_length ks 0 bytes)
  intro i _ _
  simp only [xorStream, List.getElem_mapIdx]
  rw [if_neg (Nat.not_lt_zero i)]

/-- The same key stream a second time gives the buffer back. -/
@[simp] theorem xorStream_xorStream : xorStream ks n (xorStream ks n bytes) = bytes := by
  have hlen : (xorStream ks n (xorStream ks n bytes)).length = bytes.length := by
    rw [xorStream_length, xorStream_length]
  apply List.ext_getElem hlen
  intro i _ _
  simp only [xorStream, List.getElem_mapIdx]
  split
  · rw [UInt8.xor_assoc, UInt8.xor_self, UInt8.xor_zero]
  · rfl

/-- Another key stream gives the buffer back if and only if it is the same on the buffer. -/
theorem xorStream_inverse_iff (ks' : ℕ → UInt8) :
    xorStream ks' bytes.length (xorStream ks bytes.length bytes) = bytes ↔
      ∀ i < bytes.length, ks' i = ks i := by
  have hget : ∀ i (hi : i < bytes.length),
      bytes[i] ^^^ ks i ^^^ ks' i = bytes[i] ↔ ks' i = ks i := by
    intro i _
    constructor
    · intro h
      have hcancel := congrArg (bytes[i] ^^^ ·) h
      simp only [← UInt8.xor_assoc, UInt8.xor_self, UInt8.zero_xor] at hcancel
      exact (UInt8.xor_eq_zero_iff.mp hcancel).symm
    · intro h
      rw [h, UInt8.xor_assoc, UInt8.xor_self, UInt8.xor_zero]
  have hlen : (xorStream ks' bytes.length (xorStream ks bytes.length bytes)).length =
      bytes.length := by
    rw [xorStream_length, xorStream_length]
  constructor
  · intro h i hi
    apply (hget i hi).mp
    have hi' := List.getElem_of_eq h (hlen.symm ▸ hi)
    simpa only [xorStream, List.getElem_mapIdx, if_pos hi] using hi'
  · intro h
    apply List.ext_getElem hlen
    intro i _ hi
    simp only [xorStream, List.getElem_mapIdx, if_pos hi]
    exact (hget i hi).mpr (h i hi)

end EdgeSlice
