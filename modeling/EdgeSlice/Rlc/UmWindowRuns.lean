import EdgeSlice.Rlc.UmWindowSteps

namespace EdgeSlice.Rlc

open Function SequenceSpace

/-- What reaches the receiver, with the time in milliseconds. -/
inductive UmEvent
  | receive (now : ℕ) (pdu : Bytes)
  | checkTimer (now : ℕ)

namespace UmReceiver

/-- `rlc_um_init`. -/
def init : UmReceiver where
  isDataPlane := false
  vtUs := 0
  vrUh := 0
  rxSnLength := 10
  txHeaderMinLengthInBytes := 2
  rxSnModulo := 0
  inputSdus := []
  bufferOccupancy := 0
  nbBytesRequestedByMac := 0
  outputSduInConstruction := none
  outputSduSizeToWrite := 0
  darBuffer := fun _ ↦ none
  lastReassembliedSn := 0
  reassemblyMissingSnDetected := false
  dataInd := []
  vrUr := 0
  vrUx := 0
  rxUmWindowSize := 0
  tReordering := ⟨0, 0, 0, false, false⟩

def configureRx (rxSnFieldLength : ℕ) (r : UmReceiver) : Except UmReceiver UmReceiver :=
  if rxSnFieldLength = 10 then
    .ok { r with rxSnLength := 10, rxSnModulo := 1024, rxUmWindowSize := 512 }
  else if rxSnFieldLength = 5 then
    .ok { r with rxSnLength := 5, rxSnModulo := 32, rxUmWindowSize := 16 }
  else if rxSnFieldLength ≠ 0 then .error r
  else .ok r

def configureTx (txSnFieldLength : ℕ) (r : UmReceiver) : Except UmReceiver UmReceiver :=
  if txSnFieldLength = 10 then .ok { r with txHeaderMinLengthInBytes := 2 }
  else if txSnFieldLength = 5 then .ok { r with txHeaderMinLengthInBytes := 1 }
  else if txSnFieldLength ≠ 0 then .error r
  else .ok r

/-- `rlc_um_reset_state_variables`. -/
def resetStateVariables (r : UmReceiver) : UmReceiver :=
  { r with bufferOccupancy := 0, vtUs := 0, vrUr := 0, vrUx := 0, vrUh := 0 }

/-- `rlc_um_configure`, which leaves an entity with an invalid length as far as it is. -/
def configure (timerReordering rxSnFieldLength txSnFieldLength isMXch : ℕ) (r : UmReceiver) : UmReceiver :=
  match r.configureRx rxSnFieldLength >>= configureTx txSnFieldLength with
  | .error r => r
  | .ok r =>
    resetStateVariables
      { r with
        rxUmWindowSize := if isMXch > 0 then 0 else r.rxUmWindowSize
        lastReassembliedSn := r.rxSnModulo - 1
        reassemblyMissingSnDetected := false
        tReordering := ⟨0, 0, timerReordering, false, false⟩ }

def handle : UmEvent → UmReceiver → Option UmReceiver
  | .receive now pdu, r => r.receiveProcessDar now pdu
  | .checkTimer now, r => r.checkTimerDarTimeOut now

/-- The property holds in each state of the run, in which all loops end. -/
def Throughout (Q : UmReceiver → Prop) : List UmEvent → UmReceiver → Prop
  | [], r => Q r
  | e :: events, r => Q r ∧ ∃ r', r.handle e = some r' ∧ Throughout Q events r'

/-- How far `sn` is ahead of `base`. -/
def ahead (r : UmReceiver) (sn base : ℤ) : ℤ := (sn - base) % r.rxSnModulo

/-- The reordering window in the terms of the state variables. -/
structure WindowKept (r : UmReceiver) : Prop where
  window : r.ahead r.vrUr (r.vrUh - r.rxUmWindowSize) ≤ r.rxUmWindowSize
  stored : ∀ sn : ℕ, (r.darBuffer sn).isSome → r.ahead sn r.vrUr < r.ahead r.vrUh r.vrUr
  timer : r.tReordering.running = true →
    0 < r.ahead r.vrUx r.vrUr ∧ r.ahead r.vrUx r.vrUr ≤ r.ahead r.vrUh r.vrUr

/-- The PDU is the last one missing below VR(UH), and t-Reordering is running for it. -/
def FillsLastHole (r : UmReceiver) (sn : ℕ) : Prop :=
  r.tReordering.running = true ∧ r.vrUx = r.vrUh ∧ sn = r.vrUr ∧ r.vrUr ≠ r.vrUh ∧
    ∀ k < (r.ahead r.vrUh r.vrUr).toNat, 0 < k → (r.darBuffer ((r.vrUr + k) % r.rxSnModulo)).isSome

instance (r : UmReceiver) (sn : ℕ) : Decidable (r.FillsLastHole sn) :=
  inferInstanceAs (Decidable (_ ∧ _ ∧ _ ∧ _ ∧ _))

/-- A PDU does not fill the last hole, and where there is no window it is not that below VR(UH). -/
def Guarded (r : UmReceiver) : UmEvent → Prop
  | .receive _ pdu => ¬r.FillsLastHole (r.pduSn pdu) ∧
      (r.rxUmWindowSize = 0 → (r.pduSn pdu + 1) % r.rxSnModulo ≠ r.vrUh)
  | .checkTimer _ => True

/-- Each step of the run is guarded. -/
def GuardedRun : List UmEvent → UmReceiver → Prop
  | [], _ => True
  | e :: events, r => r.Guarded e ∧ ∀ r', r.handle e = some r' → GuardedRun events r'

instance (r : UmReceiver) : ∀ e, Decidable (r.Guarded e)
  | .receive _ _ => inferInstanceAs (Decidable (_ ∧ (_ → _)))
  | .checkTimer _ => inferInstanceAs (Decidable True)

instance decidableGuardedRun : ∀ events (r : UmReceiver), Decidable (r.GuardedRun events)
  | [], _ => inferInstanceAs (Decidable True)
  | e :: events, r =>
    have (r' : UmReceiver) : Decidable (r'.GuardedRun events) := decidableGuardedRun events r'
    match h : r.handle e with
    | none => decidable_of_iff (r.Guarded e) (by simp only [GuardedRun, h, reduceCtorEq, false_implies,
        implies_true, and_true])
    | some r' => decidable_of_iff (r.Guarded e ∧ r'.GuardedRun events) (by
        simp only [GuardedRun, h, Option.some.injEq, forall_eq'])

/-- Any content will do: the window does not depend on it. -/
theorem anyRule (M : ℕ) : UmEntity.Rule M (fun _ _ ↦ True) (fun _ _ ↦ True) where
  missing := fun _ ↦ trivial
  frame := fun _ _ _ _ _ ↦ trivial
  step := fun _ _ _ _ _ ↦ trivial

/-- The receiver follows a window without an end, whose timer runs for something that is missing. -/
structure Sound (M W : ℕ) (r : UmReceiver) (w : ReorderWindow Bytes) : Prop
    extends Follows M W (fun _ _ ↦ True) (fun _ _ ↦ True) r w where
  armed : w.Armed
  length : r.rxSnLength = 10 ∧ M = 1024 ∨ r.rxSnLength ≠ 10 ∧ M = 32

namespace Sound

variable {M W i j : ℕ} {r : UmReceiver} {w : ReorderWindow Bytes} {pdu : Bytes}

theorem pduSn_lt (h : Sound M W r w) (pdu : Bytes) : r.pduSn pdu < M := by
  rw [pduSn]
  rcases h.length with ⟨hlength, rfl⟩ | ⟨hlength, rfl⟩
  · have hhigh : (pdu.getD 0 0 &&& 0x03).toNat ≤ 3 := by
      rw [UInt8.toNat_and]
      exact Nat.and_le_right
    have hlow := (pdu.getD 1 0).toNat_lt
    rw [if_pos hlength, Nat.shiftLeft_eq]
    omega
  · have hsn : (pdu.getD 0 0 &&& 0x1F).toNat ≤ 31 := by
      rw [UInt8.toNat_and]
      exact Nat.and_le_right
    rw [if_neg hlength]
    omega

theorem ahead_vrUr (h : Sound M W r w) (hlow : w.next ≤ j) (hhigh : j < w.next + M) :
    r.ahead (j % M : ℕ) r.vrUr = j - w.next := by
  have hemod : (((j % M : ℕ) : ℤ) - ((w.next % M : ℕ) - (0 : ℕ))) % M = j + (0 : ℕ) - w.next :=
    emod_sub hlow hhigh
  rw [ahead, h.vrUr, h.modulo]
  simpa only [Nat.cast_zero, sub_zero, add_zero] using hemod

theorem windowKept (h : Sound M W r w) : r.WindowKept where
  window := by
    have hle := h.good.high_le
    have hlt := h.size_lt
    have hnext := h.good.next_le
    have hemod := emod_sub (m := M) hle (by omega)
    rw [ahead, h.vrUr, h.vrUh, h.modulo, h.size, hemod]
    omega
  stored := fun sn hsome ↦ by
    have hM := h.modulo_gt
    have hsn : sn < M := by
      by_contra hge
      rw [h.beyond sn (Nat.le_of_not_lt hge)] at hsome
      exact Bool.noConfusion hsome
    obtain ⟨j, hlow, hhigh, rfl⟩ := exists_mod_eq hsn w.next
    have hbelow : j < w.high := by
      by_contra hge
      rw [h.stored j hlow hhigh, h.good.above j (Nat.le_of_not_lt hge)] at hsome
      exact Bool.noConfusion hsome
    have hle := h.good.high_le
    have hlt := h.size_lt
    rw [h.vrUh, h.ahead_vrUr hlow hhigh, h.ahead_vrUr h.good.next_le (by omega)]
    omega
  timer := fun hrunning ↦ by
    rw [h.running] at hrunning
    have hmissing := h.armed hrunning
    have hmark := h.good.mark_le hrunning
    have hle := h.good.high_le
    have hlt := h.size_lt
    rw [h.vrUx hrunning, h.vrUh, h.ahead_vrUr hmissing.le (by omega),
      h.ahead_vrUr h.good.next_le (by omega)]
    omega

theorem fillsLastHole (h : Sound M W r w) (hi : w.FillsLast i) : r.FillsLastHole (i % M) := by
  obtain ⟨hrunning, hmark, rfl, hhigh, hall⟩ := hi
  have hle := h.good.high_le
  have hlt := h.size_lt
  refine ⟨h.running.trans hrunning, ?_, h.vrUr.symm, ?_, fun k hk hpos ↦ ?_⟩
  · rw [h.vrUx hrunning, h.vrUh, hmark]
  · rw [h.vrUr, h.vrUh]
    exact mod_ne hhigh (by omega)
  · rw [h.vrUh, h.ahead_vrUr hhigh.le (by omega)] at hk
    rw [h.vrUr, h.modulo, Nat.mod_add_mod, h.stored (w.next + k) (by omega) (by omega)]
    exact hall _ (by omega) (by omega)

/-- A guarded step keeps it, and ends. -/
theorem handle (h : Sound M W r w) {e : UmEvent} (hguarded : r.Guarded e) :
    ∃ r' w', r.handle e = some r' ∧ Sound M W r' w' := by
  cases e with
  | receive now pdu =>
    obtain ⟨hlast, hzero⟩ := hguarded
    have hnext := h.good.next_le
    have hsize := h.size_le
    obtain ⟨i, hlow, hhigh, hi⟩ := exists_mod_eq (h.pduSn_lt pdu) (w.high - W)
    have hlow' : w.high ≤ i + W := by omega
    have hhigh' : i + W < w.high + M := by omega
    have hroom : 0 < W ∨ i + 1 < w.high + M := by
      by_contra hno
      have hW : W = 0 := by omega
      have hround : i + 1 = w.high + M := by omega
      apply hzero (h.size.trans hW)
      rw [h.modulo, ← hi, succ_mod, hround, Nat.add_mod_right, h.vrUh]
    obtain ⟨r', hr', hfollows, -, hlength⟩ :=
      h.toFollows.receive (anyRule M) hlow' hhigh' hroom hi.symm trivial now
    rw [← hi] at hlast
    refine ⟨r', _, hr', hfollows, ?_, by rw [hlength]; exact h.length⟩
    exact h.good.armed_receive h.armed _ _ fun hfills ↦ hlast (h.fillsLastHole hfills)
  | checkTimer now =>
    obtain ⟨r', w', hr', hexpired, hfollows, -, hlength⟩ := h.toFollows.checkTimer (anyRule M) now
    refine ⟨r', w', hr', hfollows, ?_, by rw [hlength]; exact h.length⟩
    rcases hexpired with rfl | ⟨hrunning, rfl⟩
    · exact h.armed
    · exact (h.good.expire hrunning).2

theorem throughout (h : Sound M W r w) {events : List UmEvent} (hguarded : r.GuardedRun events) :
    r.Throughout WindowKept events := by
  induction events generalizing r w with
  | nil => exact h.windowKept
  | cons e events ih =>
    obtain ⟨hfirst, hrest⟩ := hguarded
    obtain ⟨r', w', hr', hsound⟩ := h.handle hfirst
    exact ⟨h.windowKept, r', hr', ih hsound (hrest r' hr')⟩

theorem initial (hlength : r.rxSnLength = 10 ∧ r.rxSnModulo = 1024 ∨ r.rxSnLength ≠ 10 ∧ r.rxSnModulo = 32)
    (hsize : r.rxUmWindowSize < r.rxSnModulo) (hvrUr : r.vrUr = 0) (hvrUh : r.vrUh = 0)
    (hbuffer : r.darBuffer = fun _ ↦ none) (hrunning : r.tReordering.running = false) :
    Sound r.rxSnModulo r.rxUmWindowSize r
      ⟨r.rxSnModulo, r.rxSnModulo, r.rxSnModulo, fun _ ↦ none, false⟩ where
  modulo := rfl
  stored := fun _ _ _ ↦ by rw [hbuffer]
  above := fun _ _ ↦ rfl
  beyond := fun _ _ ↦ by rw [hbuffer]
  reassembled := trivial
  size := rfl
  size_lt := hsize
  size_le := hsize.le
  vrUr := by rw [hvrUr, Nat.mod_self]
  vrUh := by rw [hvrUh, Nat.mod_self]
  vrUx := Bool.noConfusion
  running := hrunning
  good := ⟨⟨Nat.le_refl _, Nat.le_add_right _ _, fun _ _ ↦ rfl⟩, Bool.noConfusion, Bool.noConfusion⟩
  modulo_gt := by omega
  content := fun _ ↦ trivial
  armed := Bool.noConfusion
  length := hlength

end Sound

theorem configureTx_eq (txSnFieldLength : ℕ) (r : UmReceiver) :
    r.configureTx txSnFieldLength = .error r ∨
      ∃ n, r.configureTx txSnFieldLength = .ok { r with txHeaderMinLengthInBytes := n } := by
  rw [configureTx]
  split_ifs
  · exact Or.inr ⟨2, rfl⟩
  · exact Or.inr ⟨1, rfl⟩
  · exact Or.inl rfl
  · exact Or.inr ⟨r.txHeaderMinLengthInBytes, rfl⟩

/-- The state after `rlc_um_init` and `rlc_um_configure` is sound for both lengths. -/
theorem sound_configure {timerReordering rxSnFieldLength txSnFieldLength isMXch : ℕ}
    (hlength : rxSnFieldLength = 5 ∨ rxSnFieldLength = 10) :
    ∃ M W w, Sound M W (init.configure timerReordering rxSnFieldLength txSnFieldLength isMXch) w := by
  obtain ⟨r, hr, hvalid⟩ : ∃ r, init.configureRx rxSnFieldLength = .ok r ∧
      (r.rxSnLength = 10 ∧ r.rxSnModulo = 1024 ∨ r.rxSnLength ≠ 10 ∧ r.rxSnModulo = 32) ∧
      r.rxUmWindowSize < r.rxSnModulo ∧ r.vrUr = 0 ∧ r.vrUh = 0 ∧ r.darBuffer = (fun _ ↦ none) ∧
      r.tReordering.running = false := by
    rcases hlength with rfl | rfl
    · exact ⟨_, rfl, Or.inr ⟨by decide, rfl⟩, by decide, rfl, rfl, rfl, rfl⟩
    · exact ⟨_, rfl, Or.inl ⟨rfl, rfl⟩, by decide, rfl, rfl, rfl, rfl⟩
  obtain ⟨hlength, hsize, hvrUr, hvrUh, hbuffer, hrunning⟩ := hvalid
  have hbind : init.configureRx rxSnFieldLength >>= configureTx txSnFieldLength =
      r.configureTx txSnFieldLength := by rw [hr]; rfl
  rw [configure, hbind]
  rcases configureTx_eq txSnFieldLength r with htx | ⟨n, htx⟩
  · rw [htx]
    exact ⟨_, _, _, Sound.initial hlength hsize hvrUr hvrUh hbuffer hrunning⟩
  · rw [htx]
    refine ⟨_, _, _, Sound.initial hlength ?_ rfl rfl hbuffer rfl⟩
    change (if isMXch > 0 then 0 else r.rxUmWindowSize) < r.rxSnModulo
    split_ifs
    · omega
    · exact hsize

/-- From the initial state on, whatever the PDUs are, the window is kept as long as no PDU fills the
last hole that t-Reordering is running for and, without a window, none is that below VR(UH). -/
theorem windowKept_of_guardedRun {timerReordering rxSnFieldLength txSnFieldLength isMXch : ℕ}
    (hlength : rxSnFieldLength = 5 ∨ rxSnFieldLength = 10) {events : List UmEvent}
    (hguarded :
      (init.configure timerReordering rxSnFieldLength txSnFieldLength isMXch).GuardedRun events) :
    (init.configure timerReordering rxSnFieldLength txSnFieldLength isMXch).Throughout WindowKept events := by
  obtain ⟨M, W, w, hsound⟩ := sound_configure hlength
  exact hsound.throughout hguarded

/-- The PDUs 1, 3, 0 and an expiry, with SNs of five bits. -/
theorem threePdus_windowKept :
    (init.configure 50 5 5 0).Throughout WindowKept
      [.receive 0 [0x01, 0xAA], .receive 10 [0x03, 0xBB], .receive 20 [0x00, 0xCC], .checkTimer 100] :=
  windowKept_of_guardedRun (Or.inl rfl) (by decide +kernel)

/-- The PDU 0 arrives after the PDU 1: all PDUs have been delivered, and t-Reordering is running. -/
theorem twoPdus_window_not_kept :
    ¬(init.configure 50 5 5 0).Throughout WindowKept
      [.receive 0 [0x01, 0xAA], .receive 10 [0x00, 0xBB]] := by
  rintro ⟨-, r₁, hr₁, -, r₂, hr₂, hkept⟩
  have hrun : (((init.configure 50 5 5 0).handle (.receive 0 [0x01, 0xAA])).bind
      (handle (.receive 10 [0x00, 0xBB]))).map (fun r ↦ (r.tReordering.running, r.vrUx, r.vrUr)) =
      some (true, 2, 2) := by decide +kernel
  rw [hr₁, Option.bind_some, hr₂, Option.map_some, Option.some.injEq, Prod.mk.injEq, Prod.mk.injEq] at hrun
  obtain ⟨hrunning, hvrUx, hvrUr⟩ := hrun
  have htimer := (hkept.timer hrunning).1
  rw [hvrUx, hvrUr, ahead, Int.sub_self, Int.zero_emod] at htimer
  exact absurd htimer (by decide)

end UmReceiver

end EdgeSlice.Rlc
