import EdgeSlice.Rlc.UmLengthIndicators
import Mathlib.Algebra.GroupWithZero.Nat

namespace EdgeSlice.Rlc

/-- Where a host that watches the accesses of the receiver stops it. -/
inductive Overrun
  | pdu
  | liArray
  deriving DecidableEq, Repr

namespace LengthIndicators

/-- `logE` says whether the arguments of `LOG_E` are evaluated: the nine bytes from `start` on are
read for the message about an invalid size. -/
def guardedLoop (logE : Bool) (start : Bytes) :
    ℕ → Bytes → LengthIndicators → Except Overrun (Option LengthIndicators)
  | 0, _, _ => .ok none
  | _ + 1, [], _ => .error .pdu
  | _ + 1, [_], _ => .error .pdu
  | fuel + 1, b1 :: b2 :: eLi, r =>
    let e1 := (b1 &&& 0x80) >>> 7
    let li1 := ((b1 &&& 0x7F).toNat <<< 4) + ((b2 &&& 0xF0) >>> 4).toNat
    if rlcUmSegmentNbMaxLiPerPdu ≤ r.liArray.length then .error .liArray
    else
      let r := r.add li1 2
      if e1 ≠ 0 then
        match eLi with
        | [] => .error .pdu
        | b3 :: eLi =>
          let e2 := (b2 &&& 0x08) >>> 3
          let li2 := ((b2 &&& 0x07).toNat <<< 8) + (b3 &&& 0xFF).toNat
          if rlcUmSegmentNbMaxLiPerPdu ≤ r.liArray.length then .error .liArray
          else
            let r := r.add li2 1
            if r.dataSize < 0 ∧ logE = true ∧ start.length < 9 then .error .pdu
            else if r.liArray.length > rlcUmSegmentNbMaxLiPerPdu then .ok none
            else if e2 = 0 then .ok (some r)
            else guardedLoop logE start fuel eLi r
      else if r.dataSize < 0 ∧ logE = true ∧ start.length < 9 then .error .pdu
      else if r.liArray.length > rlcUmSegmentNbMaxLiPerPdu then .ok none
      else .ok (some r)

end LengthIndicators

def guardedReadLengthIndicators (logE : Bool) (eLi : Bytes) (dataSize : ℕ) :
    Except Overrun (Option (List ℕ × ℕ)) :=
  match LengthIndicators.guardedLoop logE eLi rlcUmSegmentNbMaxLiPerPdu eLi ⟨[], dataSize⟩ with
  | .error e => .error e
  | .ok none => .ok none
  | .ok (some r) => .ok (if r.dataSize > 0 then some (r.liArray, r.dataSize.toNat) else none)

namespace UmEntity

/-- `memcpy` from the data that is left of the PDU. -/
def guardedReassembly (src : Bytes) (length : ℕ) (r : UmEntity) : Except Overrun UmEntity :=
  if length ≤ src.length then .ok (r.reassembly src length) else .error .pdu

def guardedSdus : List ℕ → Bytes → UmEntity → Except Overrun (UmEntity × Bytes)
  | [], data, r => .ok (r, data)
  | li :: lis, data, r => do
    let r ← r.guardedReassembly data li
    guardedSdus lis (data.drop li) r.sendSdu

def guardedLis (fi : UInt8) (lis : List ℕ) (data : Bytes) (size : ℕ) (r : UmEntity) :
    Except Overrun UmEntity :=
  if fi = 0 then do
    let (r, data) ← guardedSdus lis data r.clearRxSdu
    let r ← r.guardedReassembly data size
    return r.sendSdu.setMissing false
  else if fi = 1 then do
    let (r, data) ← guardedSdus lis data r.clearRxSdu
    let r ← r.guardedReassembly data size
    return r.setMissing false
  else do
    let (lis, data) := r.skipFirst lis data
    let (r, data) ← guardedSdus lis data r
    let r ← r.guardedReassembly data size
    return if fi = 2 then r.sendSdu.setMissing false else r.setMissing false

end UmEntity

section Bytes

variable (data : Bytes)

/-- The E bit behind the `k`th length indicator. -/
def moreAt (k : ℕ) : Bool :=
  if k % 2 = 0 then (data.getD (k / 2 * 3) 0 &&& 0x80) >>> 7 ≠ 0
  else (data.getD (k / 2 * 3 + 1) 0 &&& 0x08) >>> 3 ≠ 0

def liAt (k : ℕ) : ℕ :=
  if k % 2 = 0 then
    ((data.getD (k / 2 * 3) 0 &&& 0x7F).toNat <<< 4) + ((data.getD (k / 2 * 3 + 1) 0 &&& 0xF0) >>> 4).toNat
  else
    ((data.getD (k / 2 * 3 + 1) 0 &&& 0x07).toNat <<< 8) + (data.getD (k / 2 * 3 + 2) 0 &&& 0xFF).toNat

def lisTo (n : ℕ) : List ℕ := (List.range n).map (liAt data)

/-- The `n`th length indicator is the last one, and it is inside the data. -/
structure LisEnd (n : ℕ) : Prop where
  pos : 0 < n
  inside : lisSize n ≤ data.length
  more : ∀ k, k + 1 < n → moreAt data k = true
  last : moreAt data (n - 1) = false

end Bytes

variable {data : Bytes} {b1 b2 b3 : UInt8} {n k : ℕ}

theorem moreAt_add_two (k : ℕ) : moreAt (b1 :: b2 :: b3 :: data) (k + 2) = moreAt data k := by
  have hmod : (k + 2) % 2 = k % 2 := Nat.add_mod_right k 2
  have hpos : (k + 2) / 2 * 3 = k / 2 * 3 + 1 + 1 + 1 := by omega
  rw [moreAt, moreAt, hmod, hpos, Nat.add_right_comm, Nat.add_right_comm _ 1 1]
  rfl

theorem liAt_add_two (k : ℕ) : liAt (b1 :: b2 :: b3 :: data) (k + 2) = liAt data k := by
  have hmod : (k + 2) % 2 = k % 2 := Nat.add_mod_right k 2
  have hpos : (k + 2) / 2 * 3 = k / 2 * 3 + 3 := by omega
  have hsecond : k / 2 * 3 + 3 + 1 = k / 2 * 3 + 1 + 3 := by omega
  have hthird : k / 2 * 3 + 3 + 2 = k / 2 * 3 + 2 + 3 := by omega
  rw [liAt, liAt, hmod, hpos, hsecond, hthird]
  rfl

theorem lisTo_add_two (n : ℕ) : lisTo (b1 :: b2 :: b3 :: data) (n + 2) =
    liAt (b1 :: b2 :: b3 :: data) 0 :: liAt (b1 :: b2 :: b3 :: data) 1 :: lisTo data n := by
  rw [lisTo, List.range_succ_eq_map, List.range_succ_eq_map]
  simp only [List.map_cons, List.map_map, Function.comp_def]
  refine congrArg₂ _ rfl (congrArg₂ _ rfl (List.map_congr_left fun k _ ↦ ?_))
  exact liAt_add_two k

theorem lisEnd_one : LisEnd (b1 :: b2 :: data) 1 ↔ moreAt (b1 :: b2 :: data) 0 = false := by
  refine ⟨fun h ↦ h.last, fun h ↦ ⟨Nat.one_pos, ?_, fun k hk ↦ by omega, h⟩⟩
  simp [lisSize]

theorem lisEnd_two : LisEnd (b1 :: b2 :: b3 :: data) 2 ↔
    moreAt (b1 :: b2 :: b3 :: data) 0 = true ∧ moreAt (b1 :: b2 :: b3 :: data) 1 = false := by
  constructor
  · intro h
    exact ⟨h.more 0 (by decide), h.last⟩
  · rintro ⟨hmore, hlast⟩
    refine ⟨Nat.two_pos, by simp [lisSize], fun k hk ↦ ?_, hlast⟩
    obtain rfl : k = 0 := by omega
    exact hmore

theorem lisEnd_add_two (hn : 0 < n) : LisEnd (b1 :: b2 :: b3 :: data) (n + 2) ↔
    moreAt (b1 :: b2 :: b3 :: data) 0 = true ∧ moreAt (b1 :: b2 :: b3 :: data) 1 = true ∧
      LisEnd data n := by
  have hlast : n + 2 - 1 = n - 1 + 2 := by omega
  constructor
  · intro h
    refine ⟨h.more 0 (by omega), h.more 1 (by omega), hn, ?_, fun k hk ↦ ?_, ?_⟩
    · have hinside := h.inside
      rw [lisSize_sizes] at hinside
      exact Nat.le_of_add_le_add_right hinside
    · rw [← moreAt_add_two]
      exact h.more (k + 2) (by omega)
    · rw [← moreAt_add_two, ← hlast]
      exact h.last
  · rintro ⟨hfirst, hsecond, h⟩
    refine ⟨by omega, ?_, fun k hk ↦ ?_, ?_⟩
    · rw [lisSize_sizes]
      exact Nat.add_le_add_right h.inside 3
    · match k with
      | 0 => exact hfirst
      | 1 => exact hsecond
      | k + 2 =>
        rw [moreAt_add_two]
        exact h.more k (by omega)
    · rw [hlast, moreAt_add_two]
      exact h.last

theorem lisSize_pos (hn : 0 < n) : 2 ≤ lisSize n := by
  rw [lisSize_eq]
  omega

namespace LengthIndicators

/-- The length indicators up to the `n`th are read. -/
def addAll (r : LengthIndicators) (eLi : Bytes) (n : ℕ) : LengthIndicators :=
  ⟨r.liArray ++ lisTo eLi n, r.dataSize - (lisTo eLi n).sum - lisSize n⟩

/-- The loop ends at the `n`th length indicator without an access outside the data or the array. -/
structure EndsAt (logE : Bool) (start eLi : Bytes) (r : LengthIndicators) (n : ℕ) : Prop where
  lisEnd : LisEnd eLi n
  num_le : r.liArray.length + n ≤ rlcUmSegmentNbMaxLiPerPdu
  message : ¬((r.addAll eLi n).dataSize < 0 ∧ logE = true ∧ start.length < 9)

variable {logE : Bool} {start eLi : Bytes} {r : LengthIndicators} {fuel : ℕ}
  {res : Option LengthIndicators}

theorem addAll_one : r.addAll (b1 :: b2 :: data) 1 = r.add (liAt (b1 :: b2 :: data) 0) 2 := by
  simp [addAll, add, lisTo, lisSize]

theorem addAll_add_two (n : ℕ) : r.addAll (b1 :: b2 :: b3 :: data) (n + 2) =
    ((r.add (liAt (b1 :: b2 :: b3 :: data) 0) 2).add (liAt (b1 :: b2 :: b3 :: data) 1) 1).addAll
      data n := by
  simp only [addAll, add, lisTo_add_two, lisSize_sizes, List.append_assoc, List.cons_append,
    List.nil_append, List.sum_cons]
  congr 1
  push_cast
  omega

theorem addAll_le (r : LengthIndicators) (eLi : Bytes) (n : ℕ) :
    (r.addAll eLi n).dataSize ≤ r.dataSize := by
  change r.dataSize - ((lisTo eLi n).sum : ℕ) - (lisSize n : ℕ) ≤ r.dataSize
  omega

namespace EndsAt

theorem eq_one (h : EndsAt logE start data r n) (hlast : moreAt data 0 = false) : n = 1 := by
  have hpos := h.lisEnd.pos
  by_contra hne
  have hmore := h.lisEnd.more 0 (by omega)
  rw [hlast] at hmore
  exact Bool.false_ne_true hmore

theorem two_le (h : EndsAt logE start data r n) (hmore : moreAt data 0 = true) : 2 ≤ n := by
  have hpos := h.lisEnd.pos
  by_contra hlt
  obtain rfl : n = 1 := by omega
  have hlast := h.lisEnd.last
  rw [hmore] at hlast
  exact Bool.false_ne_true hlast.symm

theorem eq_two (h : EndsAt logE start data r n) (hmore : moreAt data 0 = true)
    (hlast : moreAt data 1 = false) : n = 2 := by
  have htwo := h.two_le hmore
  by_contra hne
  have hsecond := h.lisEnd.more 1 (by omega)
  rw [hlast] at hsecond
  exact Bool.false_ne_true hsecond

end EndsAt

theorem endsAt_add_two (hmore : moreAt (b1 :: b2 :: b3 :: data) 0 = true)
    (hsecond : moreAt (b1 :: b2 :: b3 :: data) 1 = true) :
    EndsAt logE start (b1 :: b2 :: b3 :: data) r (n + 2) ↔
      EndsAt logE start data ((r.add (liAt (b1 :: b2 :: b3 :: data) 0) 2).add
        (liAt (b1 :: b2 :: b3 :: data) 1) 1) n := by
  have hlen : ((r.add (liAt (b1 :: b2 :: b3 :: data) 0) 2).add
      (liAt (b1 :: b2 :: b3 :: data) 1) 1).liArray.length = r.liArray.length + 2 := by
    rw [add, add, List.length_append, List.length_append]
    rfl
  constructor
  · rintro ⟨hend, hle, hmessage⟩
    have hn : 0 < n := by
      by_contra hzero
      obtain rfl : n = 0 := by omega
      exact Bool.false_ne_true (hend.last.symm.trans hsecond)
    rw [addAll_add_two] at hmessage
    exact ⟨((lisEnd_add_two hn).mp hend).2.2, by omega, hmessage⟩
  · rintro ⟨hend, hle, hmessage⟩
    rw [← addAll_add_two] at hmessage
    exact ⟨(lisEnd_add_two hend.pos).mpr ⟨hmore, hsecond, hend⟩, by omega, hmessage⟩

theorem error_ne_ok (e : Overrun) (res : Option LengthIndicators) :
    ¬(.error e : Except Overrun (Option LengthIndicators)) = .ok res := nofun

/-- The loop stays inside the data and the array exactly where there is a last length indicator
that is inside both. -/
theorem guardedLoop_iff (heven : r.liArray.length % 2 = 0)
    (hnum : r.liArray.length ≤ rlcUmSegmentNbMaxLiPerPdu)
    (hfuel : rlcUmSegmentNbMaxLiPerPdu < r.liArray.length + 2 * fuel) :
    guardedLoop logE start fuel eLi r = .ok res ↔
      ∃ n, EndsAt logE start eLi r n ∧ res = some (r.addAll eLi n) := by
  have hmax : rlcUmSegmentNbMaxLiPerPdu = 128 := rfl
  induction fuel generalizing eLi r with
  | zero => omega
  | succ fuel ih =>
    -- a round needs two bytes, or three with a second length indicator
    have hshort (h : ∀ n, EndsAt logE start eLi r n → eLi.length < lisSize n) :
        ¬∃ n, EndsAt logE start eLi r n ∧ res = some (r.addAll eLi n) := by
      rintro ⟨n, hends, -⟩
      exact absurd (h n hends) (Nat.not_lt.mpr hends.lisEnd.inside)
    match eLi with
    | [] =>
      exact iff_of_false (error_ne_ok _ _) (hshort fun n hends ↦
        Nat.lt_of_lt_of_le (by decide) (lisSize_pos hends.lisEnd.pos))
    | [b] =>
      exact iff_of_false (error_ne_ok _ _) (hshort fun n hends ↦
        Nat.lt_of_lt_of_le Nat.one_lt_two (lisSize_pos hends.lisEnd.pos))
    | b1 :: b2 :: eLi =>
      have hfirst : moreAt (b1 :: b2 :: eLi) 0 = decide ((b1 &&& 0x80) >>> 7 ≠ 0) := rfl
      have hli : ((b1 &&& 0x7F).toNat <<< 4) + ((b2 &&& 0xF0) >>> 4).toNat =
        liAt (b1 :: b2 :: eLi) 0 := rfl
      have hlen : (r.add (liAt (b1 :: b2 :: eLi) 0) 2).liArray.length = r.liArray.length + 1 :=
        List.length_append
      rw [guardedLoop]
      simp only [hli]
      by_cases hfull : rlcUmSegmentNbMaxLiPerPdu ≤ r.liArray.length
      · rw [if_pos hfull]
        refine iff_of_false (error_ne_ok _ _) ?_
        rintro ⟨n, ⟨hend, hle, -⟩, -⟩
        have hpos := hend.pos
        omega
      rw [if_neg hfull]
      by_cases he1 : (b1 &&& 0x80) >>> 7 ≠ 0
      · have hmore : moreAt (b1 :: b2 :: eLi) 0 = true := hfirst.trans (decide_eq_true he1)
        rw [if_pos he1]
        match eLi with
        | [] =>
          refine iff_of_false (error_ne_ok _ _) (hshort fun n hends ↦ ?_)
          have htwo := hends.two_le hmore
          rw [lisSize_eq]
          change 2 < _
          omega
        | b3 :: eLi =>
          have hsecond : moreAt (b1 :: b2 :: b3 :: eLi) 1 = decide ((b2 &&& 0x08) >>> 3 ≠ 0) := rfl
          have hli2 : ((b2 &&& 0x07).toNat <<< 8) + (b3 &&& 0xFF).toNat =
            liAt (b1 :: b2 :: b3 :: eLi) 1 := rfl
          simp only [hli2]
          generalize hr : (r.add (liAt (b1 :: b2 :: b3 :: eLi) 0) 2).add
            (liAt (b1 :: b2 :: b3 :: eLi) 1) 1 = r2
          have hlen2 : r2.liArray.length = r.liArray.length + 2 := by
            rw [← hr, add, List.length_append, hlen]
            rfl
          have htwo : r.addAll (b1 :: b2 :: b3 :: eLi) 2 = r2 := by
            rw [addAll_add_two, hr]
            simp [addAll, lisTo, lisSize]
          have hnext (n : ℕ) : r.addAll (b1 :: b2 :: b3 :: eLi) (n + 2) = r2.addAll eLi n := by
            rw [addAll_add_two, hr]
          rw [if_neg (by omega)]
          by_cases hmessage : r2.dataSize < 0 ∧ logE = true ∧ start.length < 9
          · rw [if_pos hmessage]
            refine iff_of_false (error_ne_ok _ _) ?_
            rintro ⟨n, hends, -⟩
            obtain ⟨n, rfl⟩ := Nat.exists_eq_add_of_le' (hends.two_le hmore)
            have hle := addAll_le r2 eLi n
            rw [← hnext] at hle
            exact hends.message ⟨Int.lt_of_le_of_lt hle hmessage.1, hmessage.2⟩
          rw [if_neg hmessage, if_neg (by omega)]
          by_cases he2 : (b2 &&& 0x08) >>> 3 = 0
          · have hlast : moreAt (b1 :: b2 :: b3 :: eLi) 1 = false :=
              hsecond.trans (decide_eq_false (not_not.mpr he2))
            rw [if_pos he2]
            constructor
            · intro heq
              obtain rfl := Except.ok.inj heq
              refine ⟨2, ⟨lisEnd_two.mpr ⟨hmore, hlast⟩, by omega, ?_⟩, ?_⟩
              · rwa [htwo]
              · rw [htwo]
            · rintro ⟨n, hends, rfl⟩
              obtain rfl := hends.eq_two hmore hlast
              rw [htwo]
          · have hsecond' : moreAt (b1 :: b2 :: b3 :: eLi) 1 = true :=
              hsecond.trans (decide_eq_true he2)
            rw [if_neg he2]
            refine (ih (by omega) (by omega) (by omega)).trans ?_
            constructor
            · rintro ⟨n, hends, rfl⟩
              rw [← hr] at hends
              exact ⟨n + 2, (endsAt_add_two hmore hsecond').mpr hends, by rw [hnext]⟩
            · rintro ⟨n, hends, rfl⟩
              obtain ⟨n, rfl⟩ := Nat.exists_eq_add_of_le' (hends.two_le hmore)
              have hends' := (endsAt_add_two hmore hsecond').mp hends
              rw [hr] at hends'
              exact ⟨n, hends', by rw [hnext]⟩
      · have hlast : moreAt (b1 :: b2 :: eLi) 0 = false := hfirst.trans (decide_eq_false he1)
        rw [if_neg he1]
        by_cases hmessage : (r.add (liAt (b1 :: b2 :: eLi) 0) 2).dataSize < 0 ∧ logE = true ∧
            start.length < 9
        · rw [if_pos hmessage]
          refine iff_of_false (error_ne_ok _ _) ?_
          rintro ⟨n, hends, -⟩
          obtain rfl := hends.eq_one hlast
          have hno := hends.message
          rw [addAll_one] at hno
          exact hno hmessage
        rw [if_neg hmessage, if_neg (by omega)]
        constructor
        · intro heq
          obtain rfl := Except.ok.inj heq
          refine ⟨1, ⟨lisEnd_one.mpr hlast, by omega, ?_⟩, ?_⟩
          · rwa [addAll_one]
          · rw [addAll_one]
        · rintro ⟨n, hends, rfl⟩
          obtain rfl := hends.eq_one hlast
          rw [addAll_one]

/-- A host that does not stop the receiver sees what the receiver finds. -/
theorem loop_of_guardedLoop (h : guardedLoop logE start fuel eLi r = .ok res) :
    loop fuel eLi r = res := by
  induction fuel generalizing eLi r with
  | zero => exact Except.ok.inj h
  | succ fuel ih =>
    rcases eLi with _ | ⟨b1, _ | ⟨b2, eLi⟩⟩
    · exact absurd h (error_ne_ok _ _)
    · exact absurd h (error_ne_ok _ _)
    · rw [guardedLoop] at h
      simp only [loop, List.getD_cons_zero, List.getD_cons_succ]
      by_cases hfull : rlcUmSegmentNbMaxLiPerPdu ≤ r.liArray.length
      · rw [if_pos hfull] at h
        exact absurd h (error_ne_ok _ _)
      rw [if_neg hfull] at h
      by_cases he1 : (b1 &&& 0x80) >>> 7 ≠ 0
      · rw [if_pos he1] at h ⊢
        rcases eLi with _ | ⟨b3, eLi⟩
        · exact absurd h (error_ne_ok _ _)
        · simp only [List.getD_cons_zero, List.drop_succ_cons, List.drop_zero] at h ⊢
          split_ifs at h with hfull2 hmessage hmany he2
          · rw [if_pos hmany]
            exact Except.ok.inj h
          · rw [if_neg hmany, if_pos he2]
            exact Except.ok.inj h
          · rw [if_neg hmany, if_neg he2]
            exact ih h
      · rw [if_neg he1] at h ⊢
        split_ifs at h with hmessage hmany
        · rw [if_pos hmany]
          exact Except.ok.inj h
        · rw [if_neg hmany]
          exact Except.ok.inj h

end LengthIndicators

namespace UmEntity

variable {r : UmEntity} {lis : List ℕ} {size : ℕ}

theorem guardedSdus_eq (r : UmEntity) (h : lis.sum ≤ data.length) :
    guardedSdus lis data r = .ok (reassembleSdus lis data r) ∧
      (reassembleSdus lis data r).2 = data.drop lis.sum := by
  induction lis generalizing data r with
  | nil => exact ⟨rfl, rfl⟩
  | cons li lis ih =>
    rw [List.sum_cons] at h
    have hrest : lis.sum ≤ (data.drop li).length := by
      rw [List.length_drop]
      omega
    obtain ⟨hguarded, hdrop⟩ := ih (r.reassembly data li).sendSdu hrest
    have hfirst : r.guardedReassembly data li = .ok (r.reassembly data li) := if_pos (by omega)
    refine ⟨?_, ?_⟩
    · rw [guardedSdus, hfirst]
      exact hguarded
    · rw [reassembleSdus, hdrop, List.drop_drop, List.sum_cons]

/-- What is left behind a first length indicator that is skipped. -/
theorem skipFirst_fits (r : UmEntity) (h : lis.sum + size = data.length) :
    (r.skipFirst lis data).1.sum + size = (r.skipFirst lis data).2.length := by
  rw [skipFirst]
  split_ifs
  · cases lis with
    | nil => exact h
    | cons li lis =>
      rw [List.sum_cons] at h
      change lis.sum + size = (data.drop li).length
      rw [List.length_drop]
      omega
  · exact h

theorem guardedReassembly_eq (r r' : UmEntity) (h : lis.sum + size = data.length) :
    r.guardedReassembly (reassembleSdus lis data r').2 size =
      .ok (r.reassembly (reassembleSdus lis data r').2 size) := by
  refine if_pos ?_
  rw [(guardedSdus_eq r' (by omega)).2, List.length_drop]
  omega

/-- No byte outside the data is copied where the sizes add up, also when the first segment is
skipped. -/
theorem guardedLis_eq (fi : UInt8) (r : UmEntity) (h : lis.sum + size = data.length) :
    guardedLis fi lis data size r = .ok (r.reassembleLis fi lis data size) := by
  have hskip := r.skipFirst_fits h
  rw [guardedLis, reassembleLis]
  split_ifs with h0 h1 h2
  · rw [(guardedSdus_eq r.clearRxSdu (by omega)).1]
    simp only [bind, Except.bind, guardedReassembly_eq _ r.clearRxSdu h]
    rfl
  · rw [(guardedSdus_eq r.clearRxSdu (by omega)).1]
    simp only [bind, Except.bind, guardedReassembly_eq _ r.clearRxSdu h]
    rfl
  · simp only [bind, Except.bind, (guardedSdus_eq r (Nat.le.intro hskip)).1,
      guardedReassembly_eq _ r hskip]
    rfl
  · simp only [bind, Except.bind, (guardedSdus_eq r (Nat.le.intro hskip)).1,
      guardedReassembly_eq _ r hskip]
    rfl

end UmEntity

/-- The receiver reads the header of a PDU inside the data and writes inside its array; what it
finds makes up the data, so that nothing else is copied. -/
structure HeaderSafe (logE : Bool) (data : Bytes) : Prop where
  inside : guardedReadLengthIndicators logE data data.length = .ok (readLengthIndicators data data.length)
  sizes : ∀ lis size, readLengthIndicators data data.length = some (lis, size) →
    lis.length ≤ rlcUmSegmentNbMaxLiPerPdu ∧ 0 < size ∧
      lis.sum + lisSize lis.length + size = data.length
  copies : ∀ lis size, readLengthIndicators data data.length = some (lis, size) →
    ∀ fi (r : UmEntity), UmEntity.guardedLis fi lis (data.drop (lisSize lis.length)) size r =
      .ok (r.reassembleLis fi lis (data.drop (lisSize lis.length)) size)

theorem lisTo_length (data : Bytes) (n : ℕ) : (lisTo data n).length = n := by
  rw [lisTo, List.length_map, List.length_range]

namespace LengthIndicators

theorem endsAt_start {logE : Bool} : EndsAt logE data data ⟨[], data.length⟩ n ↔
    LisEnd data n ∧ n ≤ rlcUmSegmentNbMaxLiPerPdu ∧
      (logE = true → 9 ≤ data.length ∨ (lisTo data n).sum + lisSize n ≤ data.length) := by
  have hsize : (addAll ⟨[], data.length⟩ data n).dataSize < 0 ↔
      data.length < (lisTo data n).sum + lisSize n := by
    change (data.length : ℤ) - ((lisTo data n).sum : ℕ) - (lisSize n : ℕ) < 0 ↔ _
    omega
  constructor
  · rintro ⟨hend, hle, hmessage⟩
    rw [List.length_nil, Nat.zero_add] at hle
    refine ⟨hend, hle, fun hlog ↦ ?_⟩
    by_contra hno
    rw [not_or] at hno
    exact hmessage ⟨hsize.mpr (by omega), hlog, by omega⟩
  · rintro ⟨hend, hle, hlog⟩
    refine ⟨hend, by rwa [List.length_nil, Nat.zero_add], ?_⟩
    rintro ⟨hneg, htrue, hshort⟩
    have hlong := hsize.mp hneg
    have hroom := hlog htrue
    omega

end LengthIndicators

/-- A header is safe exactly where one of its first 128 length indicators is the last one and is
inside the data, and nine bytes are there for the message about a wrong size. -/
theorem headerSafe_iff (logE : Bool) (data : Bytes) : HeaderSafe logE data ↔
    ∃ n, LisEnd data n ∧ n ≤ rlcUmSegmentNbMaxLiPerPdu ∧
      (logE = true → 9 ≤ data.length ∨ (lisTo data n).sum + lisSize n ≤ data.length) := by
  have hloop (res : Option LengthIndicators) :
      LengthIndicators.guardedLoop logE data rlcUmSegmentNbMaxLiPerPdu data ⟨[], data.length⟩ = .ok res ↔
        ∃ n, LengthIndicators.EndsAt logE data data ⟨[], data.length⟩ n ∧
          res = some (LengthIndicators.addAll ⟨[], data.length⟩ data n) :=
    LengthIndicators.guardedLoop_iff rfl (Nat.zero_le _)
      (by
        rw [List.length_nil]
        decide)
  simp only [LengthIndicators.endsAt_start] at hloop
  constructor
  · intro h
    have hinside := h.inside
    rw [guardedReadLengthIndicators] at hinside
    cases hguarded : LengthIndicators.guardedLoop logE data rlcUmSegmentNbMaxLiPerPdu data
        ⟨[], data.length⟩ with
    | error e =>
      rw [hguarded] at hinside
      cases hinside
    | ok res =>
      obtain ⟨n, hn, -⟩ := (hloop res).mp hguarded
      exact ⟨n, hn⟩
  · rintro ⟨n, hend, hle, hlog⟩
    have hguarded := (hloop _).mpr ⟨n, ⟨hend, hle, hlog⟩, rfl⟩
    have hread : readLengthIndicators data data.length =
        if (LengthIndicators.addAll ⟨[], data.length⟩ data n).dataSize > 0 then
          some (lisTo data n, (LengthIndicators.addAll ⟨[], data.length⟩ data n).dataSize.toNat)
        else none := by
      rw [readLengthIndicators, LengthIndicators.loop_of_guardedLoop hguarded]
      rfl
    have hsizes : ∀ lis size, readLengthIndicators data data.length = some (lis, size) →
        lis.length ≤ rlcUmSegmentNbMaxLiPerPdu ∧ 0 < size ∧
          lis.sum + lisSize lis.length + size = data.length := by
      intro lis size hsome
      rw [hread] at hsome
      split_ifs at hsome with hpos
      obtain ⟨rfl, rfl⟩ := Prod.mk.inj (Option.some.inj hsome)
      have hsize : (LengthIndicators.addAll ⟨[], data.length⟩ data n).dataSize =
        (data.length : ℤ) - ((lisTo data n).sum : ℕ) - (lisSize n : ℕ) := rfl
      rw [lisTo_length]
      omega
    refine ⟨?_, hsizes, fun lis size hsome fi r ↦ ?_⟩
    · rw [guardedReadLengthIndicators, hguarded, hread]
      rfl
    · obtain ⟨-, -, hsum⟩ := hsizes lis size hsome
      apply UmEntity.guardedLis_eq
      rw [List.length_drop]
      omega

/-- All E bits are set, and the 129th length indicator is written behind the array. -/
theorem headerSafe_overrun :
    guardedReadLengthIndicators false (List.replicate 300 0x88) 300 = .error .liArray ∧
      ¬HeaderSafe false (List.replicate 300 0x88) := by
  have herror : guardedReadLengthIndicators false (List.replicate 300 0x88) 300 = .error .liArray := by
    decide +kernel
  refine ⟨herror, fun h ↦ ?_⟩
  have hinside := h.inside
  rw [List.length_replicate, herror] at hinside
  cases hinside

end EdgeSlice.Rlc
