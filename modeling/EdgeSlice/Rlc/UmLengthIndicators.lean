import EdgeSlice.BitField
import EdgeSlice.Rlc.UmReassembly

namespace EdgeSlice.Rlc

open BitField

variable {li li' : ℕ} {b : UInt8}

theorem eLiB1_toNat (more : Bool) (h : li < 2048) : (eLiB1 more li).toNat = more.toNat * 128 + li / 16 := by
  have hlow : (UInt8.ofNat (li >>> 4)).toNat = li / 16 := by
    rw [Nat.shiftRight_eq_div_pow]
    apply ofNat_toNat
    omega
  have hflag : (if more then (0x80 : UInt8) else 0) = UInt8.ofNat (more.toNat * 2 ^ 7) := by
    cases more with
    | true => rfl
    | false => rfl
  have hmore := Bool.toNat_le more
  rw [eLiB1, hflag, join_toNat (by omega) (by omega), hlow]
  rfl

theorem eLiB2_toNat (li : ℕ) : (eLiB2 li).toNat = li % 16 * 16 := by
  rw [eLiB2, Nat.shiftLeft_eq, UInt8.toNat_ofNat']
  omega

theorem eLiB2'_toNat (li : ℕ) (more : Bool) (h : li' < 2048) :
    (eLiB2' (eLiB2 li) more li').toNat = li % 16 * 16 + more.toNat * 8 + li' / 256 := by
  have hlow : (UInt8.ofNat (li' >>> 8)).toNat = li' / 256 := by
    rw [Nat.shiftRight_eq_div_pow]
    apply ofNat_toNat
    omega
  have hmore := Bool.toNat_le more
  have hflag : (if more then eLiB2 li ||| 0x08 else eLiB2 li) =
      UInt8.ofNat ((li % 16 * 2 + more.toNat) * 2 ^ 3) := by
    apply UInt8.toNat_inj.mp
    rw [ofNat_toNat (by omega)]
    cases more with
    | true =>
      have hb2 : eLiB2 li = UInt8.ofNat (li % 16 * 2 ^ 4) := by
        apply UInt8.toNat_inj.mp
        rw [eLiB2_toNat, ofNat_toNat (by omega)]
        omega
      rw [if_pos rfl, hb2, join_toNat (by omega) (by decide)]
      change li % 16 * 2 ^ 4 + 8 = (li % 16 * 2 + 1) * 2 ^ 3
      omega
    | false =>
      rw [if_neg Bool.false_ne_true, eLiB2_toNat]
      change li % 16 * 16 = (li % 16 * 2 + 0) * 2 ^ 3
      omega
  rw [eLiB2', hflag, join_toNat (by omega) (by omega), hlow]
  omega

theorem eLiB3_toNat (li : ℕ) : (eLiB3 li).toNat = li % 256 := by
  have hmask : li &&& 0xFF = li % 2 ^ 8 := Nat.and_two_pow_sub_one_eq_mod li 8
  rw [eLiB3, hmask, UInt8.toNat_ofNat']
  omega

theorem e1_toNat (b : UInt8) : ((b &&& 0x80) >>> 7).toNat = b.toNat / 128 % 2 :=
  field_toNat b (k := 7) (w := 1) (by decide) (by decide)

theorem e2_toNat (b : UInt8) : ((b &&& 0x08) >>> 3).toNat = b.toNat / 8 % 2 :=
  field_toNat b (k := 3) (w := 1) (by decide) (by decide)

theorem li1High_toNat (b : UInt8) : (b &&& 0x7F).toNat = b.toNat % 128 :=
  low_toNat b (w := 7) (by decide)

theorem li1Low_toNat (b : UInt8) : ((b &&& 0xF0) >>> 4).toNat = b.toNat / 16 := by
  have h : ((b &&& 0xF0) >>> 4).toNat = b.toNat / 16 % 16 :=
    field_toNat b (k := 4) (w := 4) (by decide) (by decide)
  have hlt := b.toNat_lt
  omega

theorem li2High_toNat (b : UInt8) : (b &&& 0x07).toNat = b.toNat % 8 :=
  low_toNat b (w := 3) (by decide)

theorem li2Low_toNat (b : UInt8) : (b &&& 0xFF).toNat = b.toNat := by
  have h : (b &&& 0xFF).toNat = b.toNat % 256 := low_toNat b (w := 8) (by decide)
  have hlt := b.toNat_lt
  omega

/-- The length indicators of a PDU, two in three bytes. -/
def encodeLis : List ℕ → Bytes
  | [] => []
  | [li] => [eLiB1 false li, eLiB2 li]
  | li :: li' :: lis =>
    eLiB1 true li :: eLiB2' (eLiB2 li) (lis ≠ []) li' :: eLiB3 li' :: encodeLis lis

/-- The bytes of so many length indicators. -/
def lisSize (n : ℕ) : ℕ := (n * 3 + 1) >>> 1

theorem lisSize_eq (n : ℕ) : lisSize n = (n * 3 + 1) / 2 := Nat.shiftRight_eq_div_pow _ _

theorem encodeLis_length (lis : List ℕ) : (encodeLis lis).length = lisSize lis.length := by
  induction lis using encodeLis.induct with
  | case1 => simp [encodeLis, lisSize]
  | case2 li => simp [encodeLis, lisSize]
  | case3 li li' lis ih =>
    simp only [encodeLis, List.length_cons, ih, lisSize_eq]
    omega

theorem lisSize_sizes (n : ℕ) : lisSize (n + 2) = lisSize n + 3 := by
  rw [lisSize_eq, lisSize_eq]
  omega

theorem li1_eq (more : Bool) (h : li < 2048) (hb : b.toNat / 16 = li % 16) :
    ((eLiB1 more li &&& 0x7F).toNat <<< 4) + ((b &&& 0xF0) >>> 4).toNat = li := by
  have hmore := Bool.toNat_le more
  rw [li1High_toNat, li1Low_toNat, eLiB1_toNat more h, hb, Nat.shiftLeft_eq]
  omega

theorem li2_eq (more : Bool) (h : li' < 2048) :
    ((eLiB2' (eLiB2 li) more li' &&& 0x07).toNat <<< 8) + (eLiB3 li' &&& 0xFF).toNat = li' := by
  rw [li2High_toNat, li2Low_toNat, eLiB2'_toNat li more h, eLiB3_toNat, Nat.shiftLeft_eq]
  omega

theorem e1_ne_zero (more : Bool) (h : li < 2048) : (eLiB1 more li &&& 0x80) >>> 7 ≠ 0 ↔ more = true := by
  have hmore := Bool.toNat_le more
  have hbit : ((eLiB1 more li &&& 0x80) >>> 7).toNat = more.toNat := by
    rw [e1_toNat, eLiB1_toNat more h]
    omega
  rw [← UInt8.toNat_inj.ne, hbit]
  cases more with
  | true => decide
  | false => decide

theorem e2_eq_zero (li : ℕ) (more : Bool) (h : li' < 2048) :
    (eLiB2' (eLiB2 li) more li' &&& 0x08) >>> 3 = 0 ↔ more = false := by
  have hmore := Bool.toNat_le more
  have hbit : ((eLiB2' (eLiB2 li) more li' &&& 0x08) >>> 3).toNat = more.toNat := by
    rw [e2_toNat, eLiB2'_toNat li more h]
    omega
  rw [← UInt8.toNat_inj, hbit]
  cases more with
  | true => decide
  | false => decide

namespace LengthIndicators

/-- The parser reads the length indicators that were written. -/
theorem loop_encodeLis (tail : Bytes) {lis : List ℕ} {fuel : ℕ} {r : LengthIndicators} (hne : lis ≠ [])
    (hlis : ∀ li ∈ lis, li < 2048) (hfuel : lis.length ≤ fuel)
    (hmax : r.liArray.length + lis.length ≤ rlcUmSegmentNbMaxLiPerPdu) :
    loop fuel (encodeLis lis ++ tail) r =
      some ⟨r.liArray ++ lis, r.dataSize - lis.sum - lisSize lis.length⟩ := by
  induction lis using encodeLis.induct generalizing fuel r with
  | case1 => exact absurd rfl hne
  | case2 li =>
    obtain ⟨fuel, rfl⟩ := Nat.exists_eq_add_one.mpr hfuel
    have hli := hlis li (List.mem_singleton_self li)
    have he1 : ¬(eLiB1 false li &&& 0x80) >>> 7 ≠ 0 := by
      rw [e1_ne_zero false hli]
      exact Bool.false_ne_true
    have hb2 : (eLiB2 li).toNat / 16 = li % 16 := by
      rw [eLiB2_toNat]
      omega
    have hnum : ¬(r.add li 2).liArray.length > rlcUmSegmentNbMaxLiPerPdu := by
      rw [add, List.length_append]
      exact Nat.not_lt.mpr hmax
    simp only [encodeLis, List.cons_append, List.nil_append, loop, List.getD_cons_zero,
      List.getD_cons_succ, if_neg he1, li1_eq false hli hb2, if_neg hnum]
    simp [add, lisSize]
  | case3 li li' lis ih =>
    obtain ⟨fuel, rfl⟩ := Nat.exists_eq_add_one.mpr (Nat.lt_of_lt_of_le (Nat.succ_pos _) hfuel)
    have hli := hlis li List.mem_cons_self
    have hli' := hlis li' (List.mem_cons_of_mem _ List.mem_cons_self)
    have he1 := (e1_ne_zero true hli).mpr rfl
    have hb2 : (eLiB2' (eLiB2 li) (lis ≠ []) li').toNat / 16 = li % 16 := by
      have hmore := Bool.toNat_le (decide (lis ≠ []))
      rw [eLiB2'_toNat li _ hli']
      omega
    have hlen : ((r.add li 2).add li' 1).liArray.length = r.liArray.length + 2 := by
      rw [add, add, List.length_append, List.length_append]
      rfl
    rw [List.length_cons, List.length_cons] at hmax
    have hnum : ¬((r.add li 2).add li' 1).liArray.length > rlcUmSegmentNbMaxLiPerPdu := by
      omega
    simp only [encodeLis, List.cons_append, loop, List.getD_cons_zero, List.getD_cons_succ, if_pos he1,
      li1_eq true hli hb2, li2_eq _ hli', if_neg hnum, e2_eq_zero li _ hli', List.drop_succ_cons,
      List.drop_zero]
    by_cases hlast : lis = []
    · subst hlast
      simp [add, lisSize]
      omega
    · have hlis' : ∀ l ∈ lis, l < 2048 := fun l hl ↦
        hlis l (List.mem_cons_of_mem _ (List.mem_cons_of_mem _ hl))
      rw [List.length_cons, List.length_cons] at hfuel
      rw [if_neg (by simp [hlast]), ih hlast hlis' (by omega) (by omega)]
      simp only [add, List.append_assoc, List.cons_append, List.nil_append, List.length_cons,
        List.sum_cons, lisSize_sizes]
      congr 2
      push_cast
      omega

end LengthIndicators

theorem readLengthIndicators_encodeLis (tail : Bytes) {lis : List ℕ} {n : ℕ} (hne : lis ≠ [])
    (hlis : ∀ li ∈ lis, li < 2048) (hmax : lis.length ≤ rlcUmSegmentNbMaxLiPerPdu) (hn : 0 < n) :
    readLengthIndicators (encodeLis lis ++ tail) (lisSize lis.length + lis.sum + n) = some (lis, n) := by
  have hsize : (((lisSize lis.length + lis.sum + n : ℕ) : ℤ) - lis.sum - lisSize lis.length) = n := by
    push_cast
    omega
  rw [readLengthIndicators,
    LengthIndicators.loop_encodeLis tail hne hlis hmax (by rw [List.length_nil, Nat.zero_add]; exact hmax)]
  simp only [List.nil_append, hsize, Int.toNat_natCast]
  exact if_pos (by omega)

end EdgeSlice.Rlc
