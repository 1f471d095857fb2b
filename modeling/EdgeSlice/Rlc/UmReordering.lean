import EdgeSlice.Rlc.UmReassembly
import Mathlib.Algebra.Group.Nat.Defs

namespace EdgeSlice.Rlc

open Function

/-- `rlc_um_timer_t`. -/
structure UmTimer where
  msTimeOut : ℕ
  msStart : ℕ
  msDuration : ℕ
  running : Bool
  timedOut : Bool
  deriving DecidableEq, Repr

namespace UmTimer

/-- The times at which t-Reordering is found to have expired. -/
def expired (now : ℕ) (t : UmTimer) : Prop :=
  t.msStart < t.msTimeOut ∧ (now ≥ t.msTimeOut ∨ now < t.msStart) ∨
    t.msStart > t.msTimeOut ∧ now < t.msStart ∧ now ≥ t.msTimeOut

instance (now : ℕ) (t : UmTimer) : Decidable (t.expired now) :=
  inferInstanceAs (Decidable (_ ∨ _))

end UmTimer

/-- `rlc_um_entity_t`, with what the reordering of PDUs uses. -/
structure UmReceiver extends UmEntity where
  vrUr : ℕ
  vrUx : ℕ
  rxUmWindowSize : ℕ
  tReordering : UmTimer

namespace UmEntity

/-- `rlc_um_try_reassembly` with a bound on the turns of its loop; `none` if it takes more. -/
def boundedReassemblyLoop (endSn : ℤ) : ℕ → ℕ → UmEntity → Option UmEntity
  | 0, _, _ => none
  | fuel + 1, sn, r =>
    let r := r.reassembleSn sn
    let sn := (sn + 1) % r.rxSnModulo
    if sn = r.vrUh ∨ sn = endSn then some r else boundedReassemblyLoop endSn fuel sn r

def boundedReassembly (startSn endSn : ℤ) (r : UmEntity) : Option UmEntity :=
  let endSn := if endSn < 0 then endSn + r.rxSnModulo else endSn
  let startSn := if startSn < 0 then startSn + r.rxSnModulo else startSn
  if startSn = endSn then some r else boundedReassemblyLoop endSn r.rxSnModulo startSn.toNat r

theorem boundedReassemblyLoop_eq {endSn : ℤ} {fuel sn : ℕ} {r r' : UmEntity}
    (h : boundedReassemblyLoop endSn fuel sn r = some r') : tryReassemblyLoop endSn fuel sn r = r' := by
  induction fuel generalizing sn r with
  | zero => cases h
  | succ fuel ih =>
    simp only [boundedReassemblyLoop, tryReassemblyLoop] at h ⊢
    split_ifs at h ⊢ with hend
    · exact Option.some.inj h
    · exact ih h

/-- A loop that ends in time does what `tryReassembly` does. -/
theorem boundedReassembly_eq {startSn endSn : ℤ} {r r' : UmEntity}
    (h : r.boundedReassembly startSn endSn = some r') : r.tryReassembly startSn endSn = r' := by
  simp only [boundedReassembly, tryReassembly] at h ⊢
  split_ifs at h ⊢ with hempty
  all_goals first | exact Option.some.inj h | exact boundedReassemblyLoop_eq h

end UmEntity

namespace UmReceiver

def stopAndResetTimerReordering (r : UmReceiver) : UmReceiver :=
  { r with tReordering := ⟨0, 0, r.tReordering.msDuration, false, false⟩ }

/-- `now` is the time in milliseconds. -/
def startTimerReordering (now : ℕ) (r : UmReceiver) : UmReceiver :=
  if r.tReordering.msDuration > 0 then
    { r with
      tReordering :=
        { r.tReordering with
          timedOut := false
          running := true
          msTimeOut := (now + r.tReordering.msDuration) % 2 ^ 32
          msStart := now } }
  else { r with tReordering := { r.tReordering with timedOut := false } }

/-- The remainders are those of C, which have the sign of the dividend. -/
def inWindow (r : UmReceiver) (lowerBound sn higherBound : ℤ) : ℤ :=
  let modulus := (r.vrUh : ℤ) - r.rxUmWindowSize
  let lowerBound := (lowerBound - modulus).tmod r.rxSnModulo
  let higherBound := (higherBound - modulus).tmod r.rxSnModulo
  let sn := (sn - modulus).tmod r.rxSnModulo
  if lowerBound > sn then -2
  else if higherBound < sn then -1
  else if lowerBound = sn then if higherBound = sn then 3 else 1
  else if higherBound = sn then 2
  else 0

def inReorderingWindow (r : UmReceiver) (sn : ℤ) : ℤ :=
  let modulus := (r.vrUh : ℤ) - r.rxUmWindowSize
  let snMod := (sn - modulus).tmod r.rxSnModulo
  if 0 ≤ snMod ∧ snMod < r.rxUmWindowSize then 0 else -1

def getPduFromDarBuffer (r : UmReceiver) (sn : ℕ) : Option Bytes := r.darBuffer sn

def storePduInDarBuffer (pdu : Bytes) (sn : ℕ) (r : UmReceiver) : UmReceiver :=
  { r with darBuffer := update r.darBuffer sn (some pdu) }

/-- `rlc_um_try_reassembly`. -/
def tryReassembly (startSn endSn : ℤ) (r : UmReceiver) : Option UmReceiver := do
  let entity ← r.toUmEntity.boundedReassembly startSn endSn
  return { r with toUmEntity := entity }

/-- The do-while loop that moves VR(UR) on; `none` if it takes more turns. -/
def nextMissing (r : UmReceiver) : ℕ → ℕ → Option ℕ
  | 0, _ => none
  | fuel + 1, vrUr =>
    let vrUr := (vrUr + 1) % r.rxSnModulo
    if (r.getPduFromDarBuffer vrUr).isSome ∧ vrUr ≠ r.vrUh then nextMissing r fuel vrUr else some vrUr

/-- The while loop that moves VR(UR) on when t-Reordering has expired. -/
def firstMissing (r : UmReceiver) : ℕ → ℕ → Option ℕ
  | 0, _ => none
  | fuel + 1, vrUr =>
    if (r.getPduFromDarBuffer vrUr).isSome then firstMissing r fuel ((vrUr + 1) % r.rxSnModulo)
    else some vrUr

/-- The sequence number of a PDU. -/
def pduSn (r : UmReceiver) (pdu : Bytes) : ℕ :=
  if r.rxSnLength = 10 then ((pdu.getD 0 0 &&& 0x03).toNat <<< 8) + (pdu.getD 1 0).toNat
  else (pdu.getD 0 0 &&& 0x1F).toNat

/-- A PDU outside the reordering window moves VR(UH), and VR(UR) where it is left behind. -/
def moveWindow (sn : ℕ) (r : UmReceiver) : Option UmReceiver :=
  if r.inReorderingWindow sn < 0 then do
    let r := { r with vrUh := (sn + 1) % r.rxSnModulo }
    let lowest := (r.vrUh : ℤ) - r.rxUmWindowSize
    let lowest := if lowest < 0 then lowest + r.rxSnModulo else lowest
    let r ← if r.inReorderingWindow r.vrUr ≠ 0 then r.tryReassembly r.vrUr lowest else some r
    return if r.inReorderingWindow r.vrUr < 0 then { r with vrUr := lowest.toNat } else r
  else some r

/-- The PDU with the sequence number VR(UR) has been received. -/
def moveVrUr (sn : ℕ) (r : UmReceiver) : Option UmReceiver :=
  if sn = r.vrUr ∧ (r.getPduFromDarBuffer r.vrUr).isSome then do
    let vrUr ← r.nextMissing r.rxSnModulo r.vrUr
    { r with vrUr := vrUr }.tryReassembly sn vrUr
  else some r

def stopOutside (r : UmReceiver) : UmReceiver :=
  if r.tReordering.running ∧ r.vrUh ≠ r.vrUx ∧ r.inReorderingWindow r.vrUx < 0 then
    r.stopAndResetTimerReordering
  else r

def stopReached (r : UmReceiver) : UmReceiver :=
  if r.tReordering.running ∧
      (r.inWindow r.vrUr r.vrUx r.vrUh = -2 ∨ r.inWindow r.vrUr r.vrUx r.vrUh = 1) then
    r.stopAndResetTimerReordering
  else r

def restart (now : ℕ) (r : UmReceiver) : UmReceiver :=
  if ¬r.tReordering.running ∧ r.inWindow r.vrUr r.vrUh r.vrUh = 2 then
    { r.startTimerReordering now with vrUx := r.vrUh }
  else r

def startAgain (now : ℕ) (r : UmReceiver) : UmReceiver :=
  if r.inWindow r.vrUr r.vrUh r.vrUh = 2 then { r.startTimerReordering now with vrUx := r.vrUh }
  else r.stopAndResetTimerReordering

/-- `rlc_um_receive_process_dar`; `none` if one of its loops takes more turns than there are
sequence numbers. -/
def receiveProcessDar (now : ℕ) (pdu : Bytes) (r : UmReceiver) : Option UmReceiver :=
  let sn := r.pduSn pdu
  let inWindow := r.inWindow ((r.vrUh : ℤ) - r.rxUmWindowSize) sn r.vrUr
  if inWindow = 1 ∨ inWindow = 0 then some r
  else if (r.getPduFromDarBuffer sn).isSome ∧ r.inWindow r.vrUr sn r.vrUh = 0 then some r
  else do
    let r ← (r.storePduInDarBuffer pdu sn).moveWindow sn
    let r ← r.moveVrUr sn
    return r.stopOutside.stopReached.restart now

/-- `rlc_um_check_timer_dar_time_out`. -/
def checkTimerDarTimeOut (now : ℕ) (r : UmReceiver) : Option UmReceiver :=
  if r.tReordering.running ∧ r.tReordering.expired now then do
    let vrUr ← r.firstMissing r.rxSnModulo r.vrUx
    let r ← { r with vrUr := vrUr }.tryReassembly r.vrUr vrUr
    return r.startAgain now
  else some r

end UmReceiver

end EdgeSlice.Rlc
