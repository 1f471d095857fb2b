import EdgeSlice.Mac.DciFeasibility
import EdgeSlice.Mac.DlschPreProcessor
import EdgeSlice.Mac.RandomAccess
import EdgeSlice.PackedWord
import EdgeSlice.RunCode

namespace EdgeSlice.Mac

open Function PackedWord

inductive FrameType
  | fdd
  | tdd
  deriving DecidableEq

/-- The width of `rballoc` in the structure for format 1A of a bandwidth. There is none for 15 and
75 resource blocks. -/
def Bandwidth.rballocWidth : Bandwidth → Option ℕ
  | .rb6 => some 5 | .rb15 => none | .rb25 => some 9 | .rb50 => some 11 | .rb75 => none | .rb100 => some 13

/-- The fields of the structures for format 1A, from the top: `w` is the width of `rballoc`. -/
structure Dci1aLayout where
  type : Field
  vrbType : Field
  rballoc : Field
  mcs : Field
  harqPid : Field
  ndi : Field
  rv : Field
  tpc : Field
  padding : Field

def dci1aLayout (frameType : FrameType) (w : ℕ) : Dci1aLayout :=
  let h := match frameType with | .fdd => 3 | .tdd => 4
  let dai := match frameType with | .fdd => 0 | .tdd => 2
  { type := ⟨31, 1⟩
    vrbType := ⟨30, 1⟩
    rballoc := ⟨30 - w, w⟩
    mcs := ⟨25 - w, 5⟩
    harqPid := ⟨25 - w - h, h⟩
    ndi := ⟨24 - w - h, 1⟩
    rv := ⟨22 - w - h, 2⟩
    tpc := ⟨20 - w - h, 2⟩
    padding := ⟨0, 20 - w - h - dai⟩ }

/-- `computeRIV` -/
def computeRIV (nRbDl rbStart lCrbs : ℕ) : ℕ :=
  if lCrbs ≤ 1 + nRbDl >>> 1 then nRbDl * (lCrbs - 1) + rbStart
  else nRbDl * (nRbDl + 1 - lCrbs) + (nRbDl - 1 - rbStart)

theorem computeRIV_eq (n rbStart lCrbs : ℕ) : computeRIV n rbStart lCrbs = RunCode.code n rbStart lCrbs := by
  rw [computeRIV, RunCode.code, Nat.shiftRight_eq_div_pow, pow_one]

/-- The first block and the number of blocks that the tables of `generate_RIV_tables` have for the
`rballoc` of a DCI. Its `vrb_type` is never set. -/
def Bandwidth.blocksOf (b : Bandwidth) (frameType : FrameType) (pdu : ℕ) : Option (ℕ × ℕ) :=
  b.rballocWidth.bind fun w ↦ RunCode.lookup b.nRbDl ((dci1aLayout frameType w).rballoc.get pdu)

/-- An entry of the list of DCIs with its contents. -/
structure DciEntry where
  alloc : DciAlloc
  dciPdu : ℕ
  deriving DecidableEq

/-- A random access process with its DCIs. -/
structure RaProc extends RaTemplate where
  raAllocPdu1 : ℕ
  raAllocPdu2 : ℕ
  msg3Subframe : ℤ
  deriving DecidableEq

/-- The common channels of a carrier, and which UEs are configured. -/
structure CommonChannels where
  vrbMap : ℤ → ℕ
  dcis : List DciEntry
  bcchAllocPdu : ℕ
  ra : ℕ → RaProc
  configured : ℕ → Bool

/-- What a subframe finds outside the common channels: the lengths that the RRC returns, and for
each process the round of its HARQ process. -/
structure CommonInput where
  bandwidth : Bandwidth
  frameType : FrameType
  subframe : ℕ
  bcchSduLength : ℤ
  rrcSduLength : ℕ → ℤ
  round : ℕ → ℕ
  findUeId : ℕ → Option ℕ

namespace CommonChannels

/-- The channels at the start of a subframe, after the DCIs that `schedule_ulsch` added before. -/
def cleared (ulDcis : List DciEntry) (ch : CommonChannels) : CommonChannels :=
  { ch with vrbMap := fun k ↦ if 0 ≤ k ∧ k < 100 then 0 else ch.vrbMap k, dcis := ulDcis }

def setRa (i : ℕ) (p : RaProc) (ch : CommonChannels) : CommonChannels := { ch with ra := update ch.ra i p }

/-- The four writes into `vrb_map`. -/
def mark (firstRb : ℤ) (ch : CommonChannels) : CommonChannels :=
  { ch with
    vrbMap := update (update (update (update ch.vrbMap firstRb 1) (firstRb + 1) 1) (firstRb + 2) 1) (firstRb + 3) 1 }

/-- `add_common_dci` and `add_ue_spec_dci` -/
def addDci (d : DciEntry) (ch : CommonChannels) : CommonChannels := { ch with dcis := ch.dcis ++ [d] }

/-- `CCE_allocation_infeasible` for the DCIs so far. -/
def infeasible (getNcceMax : ℕ → ℕ → ℕ) (subframe : ℕ) (d : DciAlloc) (ch : CommonChannels) : Bool :=
  cceAllocationInfeasible getNcceMax subframe (ch.dcis.map DciEntry.alloc) d

end CommonChannels

/-- The aggregation level of the DCIs for the common channels. -/
def commonAggregation : Fin 4 := (Fin.last 2).castSucc

def commonDci (rnti : ℕ) : DciAlloc :=
  { ueDci (UInt16.ofNat rnti) commonAggregation with searchSpace := .common }

def raDci (rnti : ℕ) : DciAlloc := ueDci (UInt16.ofNat rnti) commonAggregation

/-- `SI_RNTI` -/
def siRnti : ℕ := 0xFFFF

/-- The writes into a structure for format 1A of four blocks from `firstRb` on. -/
def fillDci1a (l : Dci1aLayout) (nRb firstRb : ℕ) (mcs : Option ℤ) (rv : ℕ) (pads : Bool) (pdu : ℕ) : ℕ :=
  let pdu := l.ndi.put 1 (l.vrbType.put 0 (l.type.put 1 pdu))
  let pdu := mcs.elim pdu fun m ↦ l.mcs.put (m % 2 ^ 5).toNat pdu
  let pdu := l.tpc.put 1 (l.harqPid.put 0 (l.rv.put rv pdu))
  let pdu := if pads then l.padding.put 0 pdu else pdu
  l.rballoc.put (computeRIV nRb firstRb 4) pdu

/-- `first_rb` of `schedule_SI` -/
def Bandwidth.siFirstRb : Bandwidth → ℤ
  | .rb6 => 0 | .rb15 => 6 | .rb25 => 11 | .rb50 => 23 | .rb75 => -1 | .rb100 => 48

def siMcs (getTbsDl : ℕ → ℕ → ℕ) (length : ℤ) : ℤ :=
  match (List.range 9).find? fun m ↦ length ≤ getTbsDl m 3 with
  | some m => m
  | none => -1

/-- `schedule_SI` -/
def scheduleSi (getNcceMax getTbsDl : ℕ → ℕ → ℕ) (inp : CommonInput) (ch : CommonChannels) : CommonChannels :=
  if 0 < inp.bcchSduLength then
    let ch := ch.mark inp.bandwidth.siFirstRb
    let pdu := match inp.bandwidth.rballocWidth with
      | none => ch.bcchAllocPdu
      | some w => fillDci1a (dci1aLayout inp.frameType w) inp.bandwidth.nRbDl inp.bandwidth.siFirstRb.toNat
          (some (siMcs getTbsDl inp.bcchSduLength)) 1 true ch.bcchAllocPdu
    let ch := { ch with bcchAllocPdu := pdu }
    if ch.infeasible getNcceMax inp.subframe (commonDci siRnti) then ch
    else ch.addDci ⟨commonDci siRnti, pdu⟩
  else ch

/-- The branch of `schedule_RA` for a random access response. -/
def sendRar (getNcceMax : ℕ → ℕ → ℕ) (inp : CommonInput) (i : ℕ) (ch : CommonChannels) : CommonChannels :=
  let p := ch.ra i
  let ch := ch.mark 0
  let pdu := match inp.bandwidth.rballocWidth, inp.frameType with
    | some w, frameType => fillDci1a (dci1aLayout frameType w) inp.bandwidth.nRbDl 0 (some 0) 0 true p.raAllocPdu1
    | none, .tdd => fillDci1a (dci1aLayout .tdd 9) inp.bandwidth.nRbDl 0 (some 0) 0 true p.raAllocPdu1
    | none, .fdd => p.raAllocPdu1
  let ch := ch.setRa i { p with raAllocPdu1 := pdu }
  if ch.infeasible getNcceMax inp.subframe (commonDci p.raRnti) then ch
  else (ch.addDci ⟨commonDci p.raRnti, pdu⟩).setRa i { p with raAllocPdu1 := pdu, msg3Subframe := -1 }

def msg4Header : ℤ := 8

/-- The modulation and coding scheme for Msg4; a longer one keeps what the DCI has. -/
def msg4Mcs (length : ℤ) : Option ℤ :=
  ([(22, 4), (28, 5), (32, 6), (41, 7), (49, 8), (57, 9)].find? fun row : ℤ × ℤ ↦ length + msg4Header ≤ row.1).map
    Prod.snd

/-- The branch of `schedule_RA` for Msg4; `none` is an abort or an exit. -/
def sendMsg4 (getNcceMax : ℕ → ℕ → ℕ) (inp : CommonInput) (i : ℕ) (ch : CommonChannels) : Option CommonChannels :=
  let p := ch.ra i
  if inp.findUeId p.rnti = none ∨ inp.rrcSduLength i = -1 then none
  else if 0 < inp.rrcSduLength i then
    let ch := ch.mark 0
    let pdu := match inp.bandwidth.rballocWidth with
      | none => p.raAllocPdu2
      | some w => fillDci1a (dci1aLayout inp.frameType w) inp.bandwidth.nRbDl 0 (msg4Mcs (inp.rrcSduLength i)) 0
          (inp.frameType = .fdd ∨ w ≠ 13) p.raAllocPdu2
    let ch := ch.setRa i { p with raAllocPdu2 := pdu }
    let d := raDci p.rnti
    some <| if ch.infeasible getNcceMax inp.subframe d then ch
      else (ch.addDci ⟨d, pdu⟩).setRa i
        { p with raAllocPdu2 := pdu, generateMsg4 := false, waitAckMsg4 := true, raActive := false }
  else some ch

/-- The retransmission of Msg4: its DCI is written through the structure for 25 resource blocks,
whatever the bandwidth is. -/
def resendMsg4 (getNcceMax : ℕ → ℕ → ℕ) (inp : CommonInput) (i : ℕ) (ch : CommonChannels) : CommonChannels :=
  let p := ch.ra i
  let l := dci1aLayout inp.frameType 9
  let ch := ch.mark 0
  let pdu := l.rballoc.put (computeRIV inp.bandwidth.nRbDl 0 4) (l.ndi.put 1 p.raAllocPdu2)
  let ch := ch.setRa i { p with raAllocPdu2 := pdu }
  let d := raDci p.rnti
  if ch.infeasible getNcceMax inp.subframe d then ch else ch.addDci ⟨d, pdu⟩

/-- Msg4 is acknowledged; `none` is the failed assertion. -/
def configureUe (inp : CommonInput) (i : ℕ) (ch : CommonChannels) : Option CommonChannels :=
  let p := ch.ra i
  (inp.findUeId p.rnti).map fun ueId ↦
    { ch.setRa i { p with waitAckMsg4 := false, raActive := false } with configured := update ch.configured ueId true }

/-- The body of the loop of `schedule_RA` over the random access processes. -/
def scheduleRaProc (getNcceMax : ℕ → ℕ → ℕ) (inp : CommonInput) (ch : CommonChannels) (i : ℕ) :
    Option CommonChannels :=
  let p := ch.ra i
  if p.raActive then
    if p.generateRar then some (sendRar getNcceMax inp i ch)
    else if p.generateMsg4 then sendMsg4 getNcceMax inp i ch
    else some ch
  else if p.waitAckMsg4 then
    if 0 < inp.round i then some (resendMsg4 getNcceMax inp i ch) else configureUe inp i ch
  else some ch

/-- `schedule_RA` -/
def scheduleRa (getNcceMax : ℕ → ℕ → ℕ) (inp : CommonInput) (ch : CommonChannels) : Option CommonChannels :=
  (List.range nbRaProcMax).foldlM (scheduleRaProc getNcceMax inp) ch

/-- The common channels of one subframe of `eNB_dlsch_ulsch_scheduler`. -/
def scheduleCommon (getNcceMax getTbsDl : ℕ → ℕ → ℕ) (inp : CommonInput) (ulDcis : List DciEntry)
    (ch : CommonChannels) : Option CommonChannels :=
  scheduleRa getNcceMax inp (scheduleSi getNcceMax getTbsDl inp (ch.cleared ulDcis))

end EdgeSlice.Mac
