import EdgeSlice.Mac.UeList

namespace EdgeSlice.Mac

open Function

def bsrTable : Vector ℕ 64 :=
  #v[0, 10, 12, 14, 17, 19, 22, 26, 31, 36, 42, 49, 57, 67, 78, 91,
    105, 125, 146, 171, 200, 234, 274, 321, 376, 440, 515, 603, 706, 826, 967, 1132,
    1326, 1552, 1817, 2127, 2490, 2915, 3413, 3995, 4677, 5467, 6411, 7505, 8787, 10287, 12043, 14099,
    16507, 19325, 22624, 26487, 31009, 36304, 42502, 49759, 58255, 68201, 79846, 93479, 109439, 128125,
    150000, 300000]

theorem bsrTable_le (bsr : Fin 64) : bsrTable.get bsr ≤ 300000 := by revert bsr; decide

/-- A buffer status report as it is received. -/
inductive BsrCe
  | truncated (b : UInt8)
  | short (b : UInt8)
  | long (b₀ b₁ b₂ : UInt8)
  deriving DecidableEq, Repr

/-- The branch of `rx_sdu` for a truncated or a short report. -/
def rxShortBsr (b : UInt8) (t : UeTemplate) : UeTemplate :=
  let lcgid : Fin 4 := Fin.ofNat 4 (b >>> 6).toNat
  let bsr : Fin 64 := Fin.ofNat 64 (b &&& 0x3f).toNat
  { t with
    bsrInfo := update t.bsrInfo lcgid bsr
    ulBufferInfo := update t.ulBufferInfo lcgid (bsrTable.get bsr)
    ulTotalBuffer := bsrTable.get bsr }

/-- The update of one group by a long report, in 32-bit arithmetic. -/
def rxLongBsrGroup (t : UeTemplate) (lcgid : Fin 4) : UeTemplate :=
  let oldBufferInfo := t.ulBufferInfo lcgid
  let newBufferInfo := bsrTable.get (t.bsrInfo lcgid)
  let total := (t.ulTotalBuffer + newBufferInfo) % 2 ^ 32
  { t with
    ulBufferInfo := update t.ulBufferInfo lcgid newBufferInfo
    ulTotalBuffer := if oldBufferInfo ≤ total then total - oldBufferInfo else 0 }

def longBsrInfo (b₀ b₁ b₂ : UInt8) : Fin 4 → Fin 64
  | 0 => Fin.ofNat 64 ((b₀ &&& 0xFC) >>> 2).toNat
  | 1 => Fin.ofNat 64 (((b₀ &&& 0x03) <<< 4) ||| ((b₁ &&& 0xF0) >>> 4)).toNat
  | 2 => Fin.ofNat 64 (((b₁ &&& 0x0F) <<< 2) ||| ((b₂ &&& 0xC0) >>> 6)).toNat
  | 3 => Fin.ofNat 64 (b₂ &&& 0x3F).toNat

def rxLongBsr (b₀ b₁ b₂ : UInt8) (t : UeTemplate) : UeTemplate :=
  [0, 1, 2, 3].foldl rxLongBsrGroup { t with bsrInfo := longBsrInfo b₀ b₁ b₂ }

def rxBsr (t : UeTemplate) : BsrCe → UeTemplate
  | .truncated b => rxShortBsr b t
  | .short b => rxShortBsr b t
  | .long b₀ b₁ b₂ => rxLongBsr b₀ b₁ b₂ t

/-- The reports of a UE, one after the other. -/
def rxBsrs (ces : List BsrCe) (t : UeTemplate) : UeTemplate := ces.foldl rxBsr t

/-- The buffered bytes of the four groups together. -/
def bufferSum (info : Fin 4 → ℕ) : ℕ := info 0 + info 1 + info 2 + info 3

theorem bufferSum_update (info : Fin 4 → ℕ) (lcgid : Fin 4) (n : ℕ) :
    bufferSum (update info lcgid n) + info lcgid = bufferSum info + n := by
  obtain ⟨_ | _ | _ | _ | k, hk⟩ := lcgid
  · show n + info 1 + info 2 + info 3 + info 0 = _
    rw [bufferSum]
    omega
  · show info 0 + n + info 2 + info 3 + info 1 = _
    rw [bufferSum]
    omega
  · show info 0 + info 1 + n + info 3 + info 2 = _
    rw [bufferSum]
    omega
  · show info 0 + info 1 + info 2 + n + info 3 = _
    rw [bufferSum]
    omega
  · omega

theorem le_bufferSum (info : Fin 4 → ℕ) (lcgid : Fin 4) : info lcgid ≤ bufferSum info := by
  have h := bufferSum_update info lcgid 0
  omega

/-- The total is that of one group alone exactly where the other groups are empty. -/
theorem bufferSum_eq_iff (info : Fin 4 → ℕ) (lcgid : Fin 4) :
    info lcgid = bufferSum info ↔ ∀ g, g ≠ lcgid → info g = 0 := by
  constructor
  · intro h g hg
    have hzero := bufferSum_update info lcgid 0
    have hle := le_bufferSum (update info lcgid 0) g
    rw [update_of_ne hg] at hle
    omega
  · intro h
    have hsum : bufferSum (update info lcgid 0) = 0 := by
      have hall : ∀ g, update info lcgid 0 g = 0 := by
        intro g
        by_cases hg : g = lcgid
        · rw [hg, update_self]
        · rw [update_of_ne hg, h g hg]
      rw [bufferSum, hall, hall, hall, hall]
    have := bufferSum_update info lcgid 0
    omega

/-- The total of a template is the sum over its groups. -/
def Balanced (t : UeTemplate) : Prop := t.ulTotalBuffer = bufferSum t.ulBufferInfo

/-- What the reports leave in the groups. -/
def Reported (t : UeTemplate) : Prop := ∀ g, t.ulBufferInfo g ≤ 300000

/-- The template of a UE added to a slot in zeroed memory. -/
def freshTemplate (harqPid : ℕ) : UeTemplate := UeTemplate.zeroed.added harqPid

theorem freshTemplate_balanced (harqPid : ℕ) : Balanced (freshTemplate harqPid) := rfl

theorem freshTemplate_reported (harqPid : ℕ) : Reported (freshTemplate harqPid) := fun _ ↦
  Nat.zero_le _

theorem reported_update {info : Fin 4 → ℕ} (h : ∀ g, info g ≤ 300000) (lcgid : Fin 4)
    (bsr : Fin 64) (g : Fin 4) : update info lcgid (bsrTable.get bsr) g ≤ 300000 := by
  by_cases hg : g = lcgid
  · rw [hg, update_self]
    exact bsrTable_le bsr
  · rw [update_of_ne hg]
    exact h g

theorem rxLongBsrGroup_reported {t : UeTemplate} (h : Reported t) (lcgid : Fin 4) :
    Reported (rxLongBsrGroup t lcgid) := reported_update h lcgid _

theorem rxLongBsrGroup_balanced {t : UeTemplate} (h : Reported t) (hbalanced : Balanced t)
    (lcgid : Fin 4) : Balanced (rxLongBsrGroup t lcgid) := by
  have hnew := bsrTable_le (t.bsrInfo lcgid)
  have hold := le_bufferSum t.ulBufferInfo lcgid
  have hsum : bufferSum t.ulBufferInfo ≤ 1200000 := by
    have := h 0
    have := h 1
    have := h 2
    have := h 3
    rw [bufferSum]
    omega
  have hupdate := bufferSum_update t.ulBufferInfo lcgid (bsrTable.get (t.bsrInfo lcgid))
  rw [Balanced] at hbalanced ⊢
  simp only [rxLongBsrGroup, hbalanced]
  rw [Nat.mod_eq_of_lt (by omega), if_pos (by omega)]
  omega

theorem rxLongBsr_balanced {t : UeTemplate} (h : Reported t) (hbalanced : Balanced t)
    (b₀ b₁ b₂ : UInt8) : Reported (rxLongBsr b₀ b₁ b₂ t) ∧ Balanced (rxLongBsr b₀ b₁ b₂ t) :=
  List.foldlRecOn (motive := fun t ↦ Reported t ∧ Balanced t) _ _ ⟨h, hbalanced⟩
    (fun _ ht lcgid _ ↦
      ⟨rxLongBsrGroup_reported ht.1 lcgid, rxLongBsrGroup_balanced ht.1 ht.2 lcgid⟩)

/-- A short report of one group finds the other groups empty. -/
def OnlyGroup (t : UeTemplate) : BsrCe → Prop
  | .truncated b | .short b => ∀ g, g ≠ Fin.ofNat 4 (b >>> 6).toNat → t.ulBufferInfo g = 0
  | .long _ _ _ => True

theorem rxShortBsr_balanced (b : UInt8) (t : UeTemplate) :
    Balanced (rxShortBsr b t) ↔ ∀ g, g ≠ Fin.ofNat 4 (b >>> 6).toNat → t.ulBufferInfo g = 0 := by
  have hiff := bufferSum_eq_iff (rxShortBsr b t).ulBufferInfo (Fin.ofNat 4 (b >>> 6).toNat)
  have htotal : (rxShortBsr b t).ulTotalBuffer =
      (rxShortBsr b t).ulBufferInfo (Fin.ofNat 4 (b >>> 6).toNat) := by
    simp only [rxShortBsr, update_self]
  rw [Balanced, htotal, hiff]
  refine forall₂_congr (fun g hg ↦ ?_)
  simp only [rxShortBsr, update_of_ne hg]

theorem rxBsr_reported {t : UeTemplate} (h : Reported t) (ce : BsrCe) : Reported (rxBsr t ce) := by
  cases ce with
  | truncated b => exact reported_update h _ _
  | short b => exact reported_update h _ _
  | long b₀ b₁ b₂ =>
    exact List.foldlRecOn (motive := Reported) _ _ h
      (fun _ ht lcgid _ ↦ rxLongBsrGroup_reported ht lcgid)

theorem rxBsr_balanced {t : UeTemplate} (h : Reported t) (hbalanced : Balanced t) (ce : BsrCe) :
    Balanced (rxBsr t ce) ↔ OnlyGroup t ce := by
  cases ce with
  | truncated b => exact rxShortBsr_balanced b t
  | short b => exact rxShortBsr_balanced b t
  | long b₀ b₁ b₂ => exact iff_of_true (rxLongBsr_balanced h hbalanced b₀ b₁ b₂).2 trivial

theorem rxBsrs_reported (harqPid : ℕ) (ces : List BsrCe) :
    Reported (rxBsrs ces (freshTemplate harqPid)) :=
  List.foldlRecOn _ _ (freshTemplate_reported harqPid) (fun _ ht ce _ ↦ rxBsr_reported ht ce)

/-- In a run of reports, the total is the sum over the groups after every report if and only
if every short or truncated report finds the other groups empty. -/
theorem ul_total_buffer_iff (harqPid : ℕ) (ces : List BsrCe) :
    (∀ front ce back, ces = front ++ ce :: back →
      Balanced (rxBsrs (front ++ [ce]) (freshTemplate harqPid))) ↔
    ∀ front ce back, ces = front ++ ce :: back → OnlyGroup (rxBsrs front (freshTemplate harqPid)) ce := by
  have hstep : ∀ front ce, rxBsrs (front ++ [ce]) (freshTemplate harqPid) =
      rxBsr (rxBsrs front (freshTemplate harqPid)) ce := fun front ce ↦ List.foldl_concat ..
  constructor
  · intro h front ce back hsplit
    have hbalanced : Balanced (rxBsrs front (freshTemplate harqPid)) := by
      rcases List.eq_nil_or_concat front with rfl | ⟨before, last, rfl⟩
      · exact freshTemplate_balanced harqPid
      · rw [List.concat_eq_append] at hsplit ⊢
        exact h before last (ce :: back) (by rw [hsplit, List.append_assoc]; rfl)
    have hnext := h front ce back hsplit
    rw [hstep] at hnext
    exact (rxBsr_balanced (rxBsrs_reported harqPid front) hbalanced ce).mp hnext
  · intro h
    have hall : ∀ front back, ces = front ++ back → Balanced (rxBsrs front (freshTemplate harqPid)) := by
      intro front
      induction front using List.reverseRecOn with
      | nil => exact fun _ _ ↦ freshTemplate_balanced harqPid
      | append_singleton front ce ih =>
        intro back hsplit
        rw [List.append_assoc, List.singleton_append] at hsplit
        rw [hstep]
        exact (rxBsr_balanced (rxBsrs_reported harqPid front) (ih _ hsplit) ce).mpr
          (h front ce back hsplit)
    intro front ce back hsplit
    exact hall (front ++ [ce]) back (by rw [hsplit, List.append_assoc]; rfl)

/-- A long report of ten bytes in each of the first two groups, then a short one of the
first. -/
theorem not_ul_total_buffer :
    ¬ ∀ (harqPid : ℕ) (ces : List BsrCe), ∀ front ce back, ces = front ++ ce :: back →
      Balanced (rxBsrs (front ++ [ce]) (freshTemplate harqPid)) := by
  intro h
  have hbalanced := h 0 [.long 0x04 0x10 0, .short 0x01] [.long 0x04 0x10 0] (.short 0x01)
    [] rfl
  have hfails : ¬ Balanced (rxBsrs [.long 0x04 0x10 0, .short 0x01] (freshTemplate 0)) := by
    rw [Balanced]
    decide +kernel
  exact hfails hbalanced

end EdgeSlice.Mac
