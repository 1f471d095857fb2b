import EdgeSlice.Rlc.AmConfirmation
import EdgeSlice.Rlc.AmNack

namespace EdgeSlice.Rlc.AmTransmitter

variable {s t u : AmTransmitter} {A : Set ℕ} {L : List ℕ} {before nacks : List Nack} {n m : Nack}
  {found : List Nack × ℕ} {ackSn c d e fuel prevNackSn nackSn : ℕ} {free : Bool}

/-- How far a sequence number is behind VT(A). -/
def offset (s : AmTransmitter) (sn : ℕ) : ℕ := amDiffSn sn s.vtA

/-- The NACKs of a report that are looked at, and how far behind VT(A) the transmitter stops. These
are in order and before ACK_SN, and the last one may be refused. `before` are the NACKs that have
been taken, the last one first. -/
def scan (s : AmTransmitter) (ackSn : ℕ) : List Nack → List Nack → List Nack × ℕ
  | _, [] => ([], s.offset ackSn)
  | before, n :: nacks =>
    if (∀ m ∈ before.head?, s.offset m.nackSn ≤ s.offset n.nackSn) ∧ s.offset n.nackSn < s.offset ackSn then
      if n.Fits (s.pduOf n.nackSn) (before.takeWhile fun m ↦ m.nackSn = n.nackSn) then
        let (looked, reach) := s.scan ackSn (n :: before) nacks
        (n :: looked, reach)
      else ([n], s.offset n.nackSn)
    else ([], s.offset ackSn)

/-- An assertion fails between the PDU that is `c` after VT(A) and the end of the scan. -/
def Fails (s : AmTransmitter) (found : List Nack × ℕ) (c : ℕ) : Prop :=
  (∃ m ∈ found.1, (s.pduOf m.nackSn).memBlock.isSome ∧ m.soEnd < m.soStart) ∨
    ∃ d, c ≤ d ∧ d < found.2 ∧ snAt s.vtA d ∉ found.1.map Nack.nackSn ∧ (s.pduOf (snAt s.vtA d)).Stuck

/-- `L` are the PDUs before the end of the scan without those that are NACKed. -/
def Releases (s : AmTransmitter) (found : List Nack × ℕ) (c : ℕ) (L : List ℕ) : Prop :=
  ∀ sn, sn ∈ L ↔ ∃ d, c ≤ d ∧ d < found.2 ∧ snAt s.vtA d = sn ∧ sn ∉ found.1.map Nack.nackSn

/-- `r` is what the scan that has found `found` makes of `t`; it is accepted if it gets to ACK_SN. -/
structure Scanned (s : AmTransmitter) (ackSn : ℕ) (found : List Nack × ℕ) (c : ℕ) (t : AmTransmitter)
    (r : Option (AmTransmitter × Bool)) : Prop where
  eq_none : s.Fails found c → r = none
  eq_some : ¬s.Fails found c → ∃ u status A L, r = some (u, status) ∧ Frame A L t u ∧
    s.Releases found c L ∧ (status = true ↔ found.2 = s.offset ackSn)

theorem offset_lt (s : AmTransmitter) (sn : ℕ) : s.offset sn < 1024 := amDiffSn_lt _ _

theorem offset_snAt (hvtA : s.vtA < 1024) (hd : d < 1024) : s.offset (snAt s.vtA d) = d := amDiffSn_snAt hvtA hd

theorem snAt_offset {sn : ℕ} (hvtA : s.vtA < 1024) (hsn : sn < 1024) : snAt s.vtA (s.offset sn) = sn :=
  snAt_amDiffSn hvtA hsn

/-- The scan does not stop before a NACK that it looks at. -/
theorem le_scan (ackSn : ℕ) {nacks : List Nack} (hm : m ∈ before.head?)
    (hle : s.offset m.nackSn ≤ s.offset ackSn) : s.offset m.nackSn ≤ (s.scan ackSn before nacks).2 := by
  induction nacks generalizing before m with
  | nil => exact hle
  | cons n nacks ih =>
    rw [scan]
    split_ifs with horder hfits
    · exact (horder.1 m hm).trans (ih rfl horder.2.le)
    · exact horder.1 m hm
    · exact hle

theorem scan_le (s : AmTransmitter) (ackSn : ℕ) (before nacks : List Nack) :
    (s.scan ackSn before nacks).2 ≤ s.offset ackSn := by
  induction nacks generalizing before with
  | nil => exact le_rfl
  | cons n nacks ih =>
    rw [scan]
    split_ifs with horder hfits
    · exact ih _
    · exact horder.2.le
    · exact le_rfl

/-- The NACKs that are looked at are in order. -/
theorem offset_le_of_mem_scan (ackSn : ℕ) (hn : n ∈ (s.scan ackSn before nacks).1) (hm : m ∈ before.head?) :
    s.offset m.nackSn ≤ s.offset n.nackSn := by
  induction nacks generalizing before m with
  | nil => cases hn
  | cons k nacks ih =>
    rw [scan] at hn
    split_ifs at hn with horder hfits
    · rcases List.mem_cons.mp hn with rfl | hn
      · exact horder.1 m hm
      · exact (horder.1 m hm).trans (ih hn rfl)
    · rw [List.mem_singleton.mp hn]
      exact horder.1 m hm
    · cases hn

/-- The scan from a NACK on that is in order. -/
theorem le_scan_cons (nacks : List Nack) (hsorted : ∀ m ∈ before.head?, s.offset m.nackSn ≤ s.offset n.nackSn)
    (hn : s.offset n.nackSn < s.offset ackSn) :
    s.offset n.nackSn ≤ (s.scan ackSn before (n :: nacks)).2 ∧
      ∀ m ∈ (s.scan ackSn before (n :: nacks)).1, s.offset n.nackSn ≤ s.offset m.nackSn := by
  rw [scan, if_pos ⟨hsorted, hn⟩]
  split_ifs with hfits
  · refine ⟨le_scan ackSn rfl hn.le, fun m hm ↦ ?_⟩
    rcases List.mem_cons.mp hm with rfl | hm
    · exact le_rfl
    · exact offset_le_of_mem_scan ackSn hm rfl
  · refine ⟨le_rfl, fun m hm ↦ ?_⟩
    rw [List.mem_singleton.mp hm]

/-- The acknowledgement of the PDUs up to the first one that the rest of the scan is about. -/
theorem Scanned.walk {r : AmTransmitter → Option (AmTransmitter × Bool)} (hcd : c ≤ d) (hd : d ≤ c + 512)
    (hlooked : ∀ m ∈ found.1, d ≤ s.offset m.nackSn) (hreach : d ≤ found.2) (hreach' : found.2 ≤ 1024)
    (hvtA : s.vtA < 1024) (hlater : ∀ e, c ≤ e → e < d → t.pduOf (snAt s.vtA e) = s.pduOf (snAt s.vtA e))
    (hrest : ∀ u, Frame (slots s.vtA c (d - c)) ((List.range' c (d - c)).map (snAt s.vtA)) t u →
      Scanned s ackSn found d u (r u)) :
    Scanned s ackSn found c t ((t.ackRange free s.vtA (d - c) c).bind r) := by
  have hbefore (e : ℕ) (hed : e < d) : snAt s.vtA e ∉ found.1.map Nack.nackSn := by
    intro hmem
    obtain ⟨m, hm, heq⟩ := List.mem_map.mp hmem
    have hle := hlooked m hm
    rw [heq, offset_snAt hvtA (by omega)] at hle
    omega
  by_cases hstuck : ∃ e, c ≤ e ∧ e < d ∧ (s.pduOf (snAt s.vtA e)).Stuck
  · obtain ⟨e, hce, hed, hstuck⟩ := hstuck
    have hfails : s.Fails found c := .inr ⟨e, hce, by omega, hbefore e hed, hstuck⟩
    refine ⟨fun _ ↦ ?_, fun hno ↦ absurd hfails hno⟩
    rw [ackRange_of_stuck (by omega) hce (by omega) (by rwa [hlater e hce hed])]
    rfl
  · have hfree (e : ℕ) (hce : c ≤ e) (hed : e < c + (d - c)) : ¬(t.pduOf (snAt s.vtA e)).Stuck := by
      rw [hlater e hce (by omega)]
      exact fun h ↦ hstuck ⟨e, hce, by omega, h⟩
    obtain ⟨u, hu, hframe⟩ := ackRange_frame free (by omega) hfree
    have hfails : s.Fails found c ↔ s.Fails found d := by
      refine or_congr_right ⟨?_, ?_⟩
      · rintro ⟨e, hce, he, hno, hstuck'⟩
        have hde : d ≤ e := not_lt.mp fun hed ↦ hstuck ⟨e, hce, hed, hstuck'⟩
        exact ⟨e, hde, he, hno, hstuck'⟩
      · rintro ⟨e, hde, he⟩
        exact ⟨e, hcd.trans hde, he⟩
    rw [hu, Option.bind_some]
    refine ⟨fun h ↦ (hrest u hframe).eq_none (hfails.mp h), fun hno ↦ ?_⟩
    obtain ⟨v, status, B, L, hr, hframe', hreleases, hstatus⟩ := (hrest u hframe).eq_some (mt hfails.mpr hno)
    refine ⟨v, status, _, _, hr, hframe.trans hframe', fun sn ↦ ?_, hstatus⟩
    rw [List.mem_append, hreleases, List.mem_map]
    constructor
    · rintro (⟨e, he, rfl⟩ | ⟨e, hde, he, heq, hno⟩)
      · obtain ⟨hce, hed⟩ := List.mem_range'_1.mp he
        exact ⟨e, hce, by omega, rfl, hbefore e (by omega)⟩
      · exact ⟨e, hcd.trans hde, he, heq, hno⟩
    · rintro ⟨e, hce, he, rfl, hno⟩
      rcases Nat.lt_or_ge e d with hed | hde
      · exact .inl ⟨e, List.mem_range'_1.mpr ⟨hce, by omega⟩, rfl⟩
      · exact .inr ⟨e, hde, he, rfl, hno⟩

/-- A NACK that is taken. -/
theorem Scanned.take {r : Option (AmTransmitter × Bool)} (hframe : Frame A [] t u)
    (hn : snAt s.vtA c = n.nackSn) (horder : n.soStart ≤ n.soEnd) (hvtA : s.vtA < 1024)
    (hreach' : found.2 ≤ 1024) (hd : d = c + 1 ∨ d = c ∧ n.nackSn ∈ found.1.map Nack.nackSn)
    (hrest : Scanned s ackSn found d u r) : Scanned s ackSn (n :: found.1, found.2) c t r := by
  have hsame (e : ℕ) : (c ≤ e ∧ e < found.2 ∧ snAt s.vtA e ∉ (n :: found.1).map Nack.nackSn) ↔
      d ≤ e ∧ e < found.2 ∧ snAt s.vtA e ∉ found.1.map Nack.nackSn := by
    simp only [List.map_cons, List.mem_cons, not_or]
    constructor
    · rintro ⟨hce, he, hne, hno⟩
      have hec : e ≠ c := by
        rintro rfl
        exact hne hn
      exact ⟨by omega, he, hno⟩
    · rintro ⟨hde, he, hno⟩
      refine ⟨by omega, he, ?_, hno⟩
      rw [← hn]
      rcases hd with rfl | ⟨rfl, hmem⟩
      · exact snAt_ne hvtA (by omega) (by omega) (by omega)
      · rintro heq
        rw [heq, hn] at hno
        exact hno hmem
  have hfails : s.Fails (n :: found.1, found.2) c ↔ s.Fails found d := by
    refine or_congr ⟨?_, ?_⟩ ⟨?_, ?_⟩
    · rintro ⟨m, hm, hmem, hback⟩
      rcases List.mem_cons.mp hm with rfl | hm
      · omega
      · exact ⟨m, hm, hmem, hback⟩
    · rintro ⟨m, hm, hback⟩
      exact ⟨m, List.mem_cons_of_mem _ hm, hback⟩
    · rintro ⟨e, hce, he, hno, hstuck⟩
      obtain ⟨hde, he, hno⟩ := (hsame e).mp ⟨hce, he, hno⟩
      exact ⟨e, hde, he, hno, hstuck⟩
    · rintro ⟨e, hde, he, hno, hstuck⟩
      obtain ⟨hce, he, hno⟩ := (hsame e).mpr ⟨hde, he, hno⟩
      exact ⟨e, hce, he, hno, hstuck⟩
  refine ⟨fun h ↦ hrest.eq_none (hfails.mp h), fun hno ↦ ?_⟩
  obtain ⟨v, status, B, L, hr, hframe', hreleases, hstatus⟩ := hrest.eq_some (mt hfails.mpr hno)
  refine ⟨v, status, _, L, hr, hframe.trans hframe', fun sn ↦ ?_, hstatus⟩
  rw [hreleases]
  constructor
  · rintro ⟨e, hde, he, rfl, hno⟩
    obtain ⟨hce, he, hno⟩ := (hsame e).mpr ⟨hde, he, hno⟩
    exact ⟨e, hce, he, rfl, hno⟩
  · rintro ⟨e, hce, he, rfl, hno⟩
    obtain ⟨hde, he, hno⟩ := (hsame e).mp ⟨hce, he, hno⟩
    exact ⟨e, hde, he, rfl, hno⟩

/-- The loop acknowledges the PDUs before the next NACK_SN and before ACK_SN. -/
theorem nackLoop_walk {a : ℕ} (hprev : prevNackSn ≠ nackSn) (hcd : c ≤ d)
    (hother : ∀ e, c ≤ e → e < d → snAt a e ≠ nackSn ∧ snAt a e ≠ ackSn) :
    t.nackLoop ackSn (fuel + (d - c)) (snAt a c) nackSn prevNackSn nacks =
      (t.ackRange false a (d - c) c).bind fun u ↦
        u.nackLoop ackSn fuel (snAt a d) nackSn prevNackSn nacks := by
  induction hk : d - c generalizing c t with
  | zero =>
    obtain rfl : c = d := by omega
    rfl
  | succ k ih =>
    obtain ⟨hnack, hack⟩ := hother c le_rfl (by omega)
    rw [← Nat.add_assoc, nackLoop, if_pos hack, if_pos hnack, ackRange]
    cases hfirst : t.ackPdu (snAt a c) false with
    | none => rfl
    | some u =>
      have hrest := ih (t := u) (c := c + 1) (by omega) (fun e hce ↦ hother e (by omega)) (by omega)
      simp only [Option.bind_eq_bind, Option.bind_some, if_pos hprev, mask_succ_snAt]
      exact hrest

theorem scanned_end (hc : c = s.offset ackSn) (u : AmTransmitter) :
    Scanned s ackSn ([], c) c u (some (u, true)) := by
  refine ⟨?_, fun _ ↦ ⟨u, true, ∅, [], rfl, Frame.refl u, fun sn ↦ ?_, iff_of_true rfl hc⟩⟩
  · rintro (⟨m, hm, -⟩ | ⟨e, hle, hlt, -⟩)
    · cases hm
    · omega
  · refine iff_of_false List.not_mem_nil ?_
    rintro ⟨e, hle, hlt, -⟩
    omega

/-- The end of the loop, when no further NACK is before ACK_SN. -/
theorem scanned_finish (hvtA : s.vtA < 1024) (hack : ackSn < 1024) (hwindow : s.offset ackSn ≤ 512)
    (hc : c ≤ s.offset ackSn) (hlater : ∀ e, c ≤ e → e < s.offset ackSn → t.pduOf (snAt s.vtA e) = s.pduOf (snAt s.vtA e))
    (hprev : prevNackSn ≠ nackSn) (hother : ∀ e, c ≤ e → e < s.offset ackSn → snAt s.vtA e ≠ nackSn)
    (hfuel : s.offset ackSn - c < fuel) :
    Scanned s ackSn ([], s.offset ackSn) c t (t.nackLoop ackSn fuel (snAt s.vtA c) nackSn prevNackSn nacks) := by
  have hend : snAt s.vtA (s.offset ackSn) = ackSn := snAt_offset hvtA hack
  have hbefore (e : ℕ) (hce : c ≤ e) (he : e < s.offset ackSn) :
      snAt s.vtA e ≠ nackSn ∧ snAt s.vtA e ≠ ackSn := by
    refine ⟨hother e hce he, ?_⟩
    rw [← hend]
    exact snAt_ne hvtA (by omega) (by omega) (by omega)
  obtain ⟨k, rfl⟩ : ∃ k, fuel = k + 1 + (s.offset ackSn - c) := ⟨fuel - 1 - (s.offset ackSn - c), by omega⟩
  rw [nackLoop_walk hprev hc hbefore]
  refine Scanned.walk hc (by omega) (List.forall_mem_nil _) le_rfl (by omega) hvtA hlater fun u _ ↦ ?_
  rw [hend, nackLoop, if_neg (not_not_intro rfl)]
  exact scanned_end rfl u

/-- A NACK that is refused. -/
theorem scanned_refused (hc : c < s.offset ackSn) (hforward : (s.pduOf n.nackSn).memBlock.isSome → n.soStart ≤ n.soEnd) :
    Scanned s ackSn ([n], c) c t (some (t, false)) := by
  refine ⟨?_, fun _ ↦ ⟨t, false, ∅, [], rfl, Frame.refl t, fun sn ↦ ?_, iff_of_false Bool.false_ne_true hc.ne⟩⟩
  · rintro (⟨m, hm, hmem, hback⟩ | ⟨e, hle, hlt, -⟩)
    · rw [List.mem_singleton.mp hm] at hmem hback
      have hle := hforward hmem
      omega
    · omega
  · refine iff_of_false List.not_mem_nil ?_
    rintro ⟨e, hle, hlt, -⟩
    omega

/-- What the loop has done when it gets to the PDU that is `c` after VT(A). -/
structure Reached (s : AmTransmitter) (before : List Nack) (c : ℕ) (t : AmTransmitter) : Prop where
  later : ∀ d, c < d → d < 512 → t.pduOf (snAt s.vtA d) = s.pduOf (snAt s.vtA d)
  here : Nack.Took (s.pduOf (snAt s.vtA c)) (before.takeWhile fun m ↦ m.nackSn = snAt s.vtA c)
    (t.pduOf (snAt s.vtA c))

theorem backward_not_fits {p : AmTxPdu} {group : List Nack} (hback : n.soEnd < n.soStart) :
    ¬n.Fits p group := by
  have hpart : ¬n.PartOf p := by
    rintro ⟨-, hle, -⟩
    have hstart := n.soStart_lt
    rw [Nack.soStop] at hle
    split_ifs at hle with hall
    · rw [hall, rlcAmStatusPduSoEndAllBytes] at hback
      omega
    · omega
  rintro ⟨-, -, hcontinues⟩
  cases group with
  | nil =>
    rcases hcontinues with ⟨hwhole, -⟩ | h
    · have hzero := hwhole.1
      omega
    · exact hpart h
  | cons last group => exact hpart hcontinues.1

/-- The NACK after one that has been taken, or ACK_SN. -/
def nextSn (ackSn : ℕ) : List Nack → ℕ
  | [] => ackSn
  | n :: _ => n.nackSn

/-- The loop at a NACK. -/
theorem nackLoop_nack (fuel : ℕ) (nacks : List Nack) (hvtA : s.vtA < 1024) (hack : ackSn < 1024)
    (hpos : ∀ i, (s.txDataPduBuffer i).memBlock.isSome → 0 < (s.txDataPduBuffer i).payloadSize)
    (hreached : Reached s before c t) (hn : snAt s.vtA c = n.nackSn) (hc : c < s.offset ackSn)
    (hprev : prevNackSn = n.nackSn ↔ (before.takeWhile fun m ↦ m.nackSn = n.nackSn) ≠ []) :
    if n.Fits (s.pduOf n.nackSn) (before.takeWhile fun m ↦ m.nackSn = n.nackSn) then
      n.soStart ≤ n.soEnd ∧ ∃ u, Frame {n.nackSn % rlcAmWindowSize} [] t u ∧ Reached s (n :: before) c u ∧
        t.nackLoop ackSn (fuel + 1) (snAt s.vtA c) n.nackSn prevNackSn (n :: nacks) =
          u.nackLoop ackSn fuel (snAt s.vtA (if n.nackSn = nextSn ackSn nacks then c else c + 1))
            (nextSn ackSn nacks) n.nackSn nacks
    else
      Scanned s ackSn ([n], c) c t (t.nackLoop ackSn (fuel + 1) (snAt s.vtA c) n.nackSn prevNackSn (n :: nacks)) := by
  have hoffset := s.offset_lt ackSn
  have hne : n.nackSn ≠ ackSn := by
    rw [← hn, ← snAt_offset hvtA hack]
    exact snAt_ne hvtA (by omega) hoffset hc.ne
  have hhere := hreached.here
  rw [hn] at hhere ⊢
  rw [nackLoop, if_pos hne, if_neg (not_not_intro rfl)]
  simp only [List.headD_cons, List.tail_cons]
  by_cases hmem : (s.pduOf n.nackSn).memBlock.isSome
  · rcases Nat.lt_or_ge n.soEnd n.soStart with hback | horder
    · have hmem' : (t.pduOf n.nackSn).memBlock.isSome := by rwa [hhere.memBlock_eq]
      rw [if_neg (backward_not_fits hback), nackPdu_of_backward hmem' hback]
      exact ⟨fun _ ↦ rfl, fun hno ↦ absurd (.inl ⟨n, List.mem_singleton_self n, hmem, hback⟩) hno⟩
    · have htook := nackPdu_took hhere hmem (hpos _ hmem) hprev horder
      by_cases hfits : n.Fits (s.pduOf n.nackSn) (before.takeWhile fun m ↦ m.nackSn = n.nackSn)
      · rw [if_pos hfits] at htook ⊢
        obtain ⟨u, hu, hframe, htook'⟩ := htook
        refine ⟨horder, u, hframe, ⟨fun d hcd hd ↦ ?_, ?_⟩, ?_⟩
        · have hslot := slot_ne s.vtA hcd (by omega)
          rw [hn] at hslot
          rw [hframe.pduOf_eq fun hmem ↦ hslot (Set.mem_singleton_iff.mp hmem).symm]
          exact hreached.later d hcd hd
        · rw [hn, List.takeWhile_cons_of_pos (by simp)]
          exact htook'
        · rw [hu, Option.bind_eq_bind, Option.bind_some]
          cases nacks with
          | nil =>
            have hnext : nextSn ackSn [] = ackSn := rfl
            rw [hnext, if_neg hne, if_neg (not_not_intro rfl), ← mask_succ_snAt, hn]
            simp only [if_pos hne]
          | cons next nacks =>
            have hnext : nextSn ackSn (next :: nacks) = next.nackSn := rfl
            rw [hnext, if_neg (not_not_intro rfl)]
            simp only
            by_cases hsame : n.nackSn = next.nackSn
            · rw [if_neg (not_not_intro hsame), if_pos hsame, hn]
            · rw [if_pos hsame, if_neg hsame, ← mask_succ_snAt, hn]
      · rw [if_neg hfits] at htook ⊢
        rw [htook]
        exact scanned_refused hc fun _ ↦ horder
  · have hmem' : (t.pduOf n.nackSn).memBlock = none := by
      rw [hhere.memBlock_eq]
      exact Option.not_isSome_iff_eq_none.mp hmem
    rw [if_neg fun hfits ↦ hmem hfits.1, nackPdu_of_missing hmem']
    exact scanned_refused hc fun h ↦ absurd h hmem

section Loop

variable (hvtA : s.vtA < 1024) (hack : ackSn < 1024) (hwindow : s.offset ackSn ≤ 512)
  (hpos : ∀ i, (s.txDataPduBuffer i).memBlock.isSome → 0 < (s.txDataPduBuffer i).payloadSize)

include hvtA hack hpos

/-- One turn of the loop at a NACK, with what is known of the turns after it. -/
theorem nackLoop_step (hreached : Reached s before c t) (hn : s.offset n.nackSn = c)
    (hc : c < s.offset ackSn) (hsorted : ∀ m ∈ before.head?, s.offset m.nackSn ≤ s.offset n.nackSn)
    (hprev : prevNackSn = n.nackSn ↔ (before.takeWhile fun m ↦ m.nackSn = n.nackSn) ≠ [])
    (hd : d = c + 1 ∨ d = c ∧ n.nackSn ∈ (s.scan ackSn (n :: before) nacks).1.map Nack.nackSn)
    (hrest : ∀ u, Reached s (n :: before) c u → Scanned s ackSn (s.scan ackSn (n :: before) nacks) d u
      (u.nackLoop ackSn fuel (snAt s.vtA (if n.nackSn = nextSn ackSn nacks then c else c + 1))
        (nextSn ackSn nacks) n.nackSn nacks)) :
    Scanned s ackSn (s.scan ackSn before (n :: nacks)) c t
      (t.nackLoop ackSn (fuel + 1) (snAt s.vtA c) n.nackSn prevNackSn (n :: nacks)) := by
  have hsn : snAt s.vtA c = n.nackSn := hn ▸ snAt_offset hvtA n.sn_lt
  have hstep := nackLoop_nack fuel nacks hvtA hack hpos hreached hsn hc hprev
  rw [scan, if_pos ⟨hsorted, hn ▸ hc⟩]
  by_cases hfits : n.Fits (s.pduOf n.nackSn) (before.takeWhile fun m ↦ m.nackSn = n.nackSn)
  · rw [if_pos hfits] at hstep ⊢
    obtain ⟨horder, u, hframe, hreached', heq⟩ := hstep
    have hend := (scan_le s ackSn (n :: before) nacks).trans (s.offset_lt ackSn).le
    rw [heq]
    exact Scanned.take hframe hsn horder hvtA hend hd (hrest u hreached')
  · rw [if_neg hfits] at hstep ⊢
    rw [hn]
    exact hstep

include hwindow

/-- The loop, from a NACK on that is in order and before ACK_SN. -/
theorem nackLoop_scanned (hreached : Reached s before c t) (hn : s.offset n.nackSn = c)
    (hc : c < s.offset ackSn) (hsorted : ∀ m ∈ before.head?, s.offset m.nackSn ≤ s.offset n.nackSn)
    (hprev : prevNackSn = n.nackSn ↔ (before.takeWhile fun m ↦ m.nackSn = n.nackSn) ≠ [])
    (hfuel : s.offset ackSn - c + (n :: nacks).length < fuel) :
    Scanned s ackSn (s.scan ackSn before (n :: nacks)) c t
      (t.nackLoop ackSn fuel (snAt s.vtA c) n.nackSn prevNackSn (n :: nacks)) := by
  induction nacks generalizing before c n t fuel prevNackSn with
  | nil =>
    obtain ⟨fuel, rfl⟩ : ∃ k, fuel = k + 1 := ⟨fuel - 1, by omega⟩
    have hne : n.nackSn ≠ nextSn ackSn [] := by
      intro heq
      rw [heq] at hn
      exact hc.ne' hn
    have hother (e : ℕ) (he : e < s.offset ackSn) : snAt s.vtA e ≠ ackSn := by
      rintro rfl
      rw [offset_snAt hvtA (by omega)] at he
      exact lt_irrefl e he
    refine nackLoop_step hvtA hack hpos hreached hn hc hsorted hprev (.inl rfl) fun u hreached' ↦ ?_
    rw [if_neg hne]
    refine scanned_finish hvtA hack hwindow hc (fun e hce he ↦ ?_) hne (fun e _ ↦ hother e) ?_
    · exact hreached'.later e hce (by omega)
    · rw [List.length_singleton] at hfuel
      omega
  | cons next nacks ih =>
    obtain ⟨fuel, rfl⟩ : ∃ k, fuel = k + 1 := ⟨fuel - 1, by omega⟩
    rw [List.length_cons] at hfuel
    have hnext : nextSn ackSn (next :: nacks) = next.nackSn := rfl
    by_cases hsame : n.nackSn = next.nackSn
    · -- a further NACK for the same PDU
      have hmem : n.nackSn ∈ (s.scan ackSn (n :: before) (next :: nacks)).1.map Nack.nackSn := by
        have horder : (∀ m ∈ (n :: before).head?, s.offset m.nackSn ≤ s.offset next.nackSn) ∧
            s.offset next.nackSn < s.offset ackSn := by
          refine ⟨fun m hm ↦ ?_, by rwa [← hsame, hn]⟩
          rw [← Option.some.inj hm, hsame]
        rw [hsame, scan, if_pos horder]
        split_ifs
        all_goals exact List.mem_map_of_mem List.mem_cons_self
      refine nackLoop_step hvtA hack hpos hreached hn hc hsorted hprev (.inr ⟨rfl, hmem⟩) fun u hreached' ↦ ?_
      rw [hnext, if_pos hsame]
      refine ih hreached' (hsame ▸ hn) hc (fun m hm ↦ ?_) (iff_of_true hsame ?_) (by omega)
      · rw [← Option.some.inj hm, hsame]
      · rw [List.takeWhile_cons_of_pos (by simpa using hsame)]
        exact List.cons_ne_nil _ _
    · refine nackLoop_step hvtA hack hpos hreached hn hc hsorted hprev (.inl rfl) fun u hreached' ↦ ?_
      rw [hnext, if_neg hsame]
      have hlater (e : ℕ) (hce : c + 1 ≤ e) (he : e < s.offset ackSn) :
          u.pduOf (snAt s.vtA e) = s.pduOf (snAt s.vtA e) := hreached'.later e hce (by omega)
      have hnextSn := snAt_offset hvtA next.sn_lt
      by_cases horder : c < s.offset next.nackSn ∧ s.offset next.nackSn < s.offset ackSn
      · -- the PDUs between the two NACKs are acknowledged
        have hhead (m : Nack) (hm : m ∈ (n :: before).head?) : s.offset m.nackSn ≤ s.offset next.nackSn := by
          rw [← Option.some.inj hm, hn]
          exact horder.1.le
        obtain ⟨hreach, hlooked⟩ := le_scan_cons nacks hhead horder.2
        have hend := (scan_le s ackSn (n :: before) (next :: nacks)).trans (s.offset_lt ackSn).le
        obtain ⟨k, rfl⟩ : ∃ k, fuel = k + (s.offset next.nackSn - (c + 1)) :=
          ⟨fuel - (s.offset next.nackSn - (c + 1)), by omega⟩
        have hbefore (e : ℕ) (_ : c + 1 ≤ e) (he : e < s.offset next.nackSn) :
            snAt s.vtA e ≠ next.nackSn ∧ snAt s.vtA e ≠ ackSn := by
          constructor
          · rw [← hnextSn]
            exact snAt_ne hvtA (by omega) (by omega) he.ne
          · rw [← snAt_offset hvtA hack]
            exact snAt_ne hvtA (by omega) (by omega) (by omega)
        rw [nackLoop_walk hsame (show c + 1 ≤ s.offset next.nackSn by omega) hbefore, hnextSn]
        refine Scanned.walk (by omega) (by omega) hlooked hreach hend hvtA
          (fun e hce he ↦ hlater e hce (by omega)) fun v hframe ↦ ?_
        have hsame' (e : ℕ) (hle : s.offset next.nackSn ≤ e) (he : e < 512) :
            v.pduOf (snAt s.vtA e) = s.pduOf (snAt s.vtA e) := by
          rw [hframe.pduOf_eq (not_mem_slots s.vtA (by omega) (by omega))]
          exact hreached'.later e (by omega) he
        have hreached'' : Reached s (n :: before) (s.offset next.nackSn) v := by
          refine ⟨fun e hle ↦ hsame' e hle.le, ?_⟩
          rw [hsame' _ le_rfl (by omega), hnextSn, List.takeWhile_cons_of_neg (by simpa using hsame)]
          exact Nack.Took.nil _
        have hfirst : n.nackSn = next.nackSn ↔
            ((n :: before).takeWhile fun m ↦ m.nackSn = next.nackSn) ≠ [] := by
          refine iff_of_false hsame (not_not_intro ?_)
          exact List.takeWhile_cons_of_neg (by simpa using hsame)
        have hloop := ih hreached'' rfl horder.2 hhead hfirst (show _ < k by omega)
        rwa [hnextSn] at hloop
      · -- the rest of the report is not looked at
        have hstop : s.scan ackSn (n :: before) (next :: nacks) = ([], s.offset ackSn) := by
          rw [scan, if_neg]
          rintro ⟨hhead, hlt⟩
          have hle := hhead n rfl
          rw [hn] at hle
          refine horder ⟨hle.lt_of_ne fun heq ↦ hsame ?_, hlt⟩
          rw [← snAt_offset hvtA n.sn_lt, hn, heq, hnextSn]
        rw [hstop]
        refine scanned_finish hvtA hack hwindow hc hlater hsame (fun e hce he heq ↦ ?_) (by omega)
        rw [← heq, offset_snAt hvtA (by omega)] at horder
        exact horder ⟨hce, he⟩

end Loop

end EdgeSlice.Rlc.AmTransmitter
