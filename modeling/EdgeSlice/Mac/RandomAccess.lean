import EdgeSlice.Mac.UeLifecycle

namespace EdgeSlice.Mac

open Function

/-- The fields of `RA_TEMPLATE` that tell which process has which RNTI. -/
structure RaTemplate where
  raActive : Bool
  generateRar : Bool
  generateMsg4 : Bool
  waitAckMsg4 : Bool
  rnti : ℕ
  raRnti : ℕ
  preambleIndex : ℕ
  timingOffset : ℤ
  rrcTimer : ℕ
  deriving DecidableEq

/-- The contents of zeroed memory. -/
def RaTemplate.zeroed : RaTemplate := ⟨false, false, false, false, 0, 0, 0, 0, 0⟩

/-- A process that has neither got Msg3 yet nor been cancelled. -/
def RaTemplate.waiting (t : RaTemplate) : Bool := t.raActive && !t.generateMsg4 && !t.waitAckMsg4

/-- What a cancelled process is reset to. -/
def RaTemplate.cancelled (t : RaTemplate) : RaTemplate :=
  { t with
    raActive := false, generateRar := false, generateMsg4 := false, waitAckMsg4 := false
    timingOffset := 0, rrcTimer := 20, rnti := 0 }

/-- `NB_RA_PROC_MAX` -/
def nbRaProcMax : ℕ := 4

/-- `CCCH_PAYLOAD_SIZE_MAX` -/
def ccchPayloadSizeMax : ℕ := 128

/-- The UEs of an eNB and the random access processes of its carriers. -/
structure RaMac where
  ueList : UeList
  raTemplate : ℕ → ℕ → RaTemplate

namespace RaMac

def setRa (cc i : ℕ) (t : RaTemplate) (s : RaMac) : RaMac :=
  { s with raTemplate := update s.raTemplate cc (update (s.raTemplate cc) i t) }

/-- The test that ends the loop over the values of `taus`. -/
def accepts (s : RaMac) (rnti : ℕ) : Bool :=
  decide (s.ueList.findUeId rnti = none) && decide (1024 ≤ rnti) && decide (rnti < 60000)

/-- The RNTI that the loop over the values of `taus` ends with; `none` if the hundredth value is drawn, whereupon the
eNB aborts. -/
def drawRnti (draws : ℕ → ℕ) (s : RaMac) : Option ℕ :=
  ((List.range 99).map fun k ↦ draws k % 2 ^ 16).find? s.accepts

/-- The first process of a carrier that is free. -/
def freeProc (cc : ℕ) (s : RaMac) : Option ℕ :=
  (List.range nbRaProcMax).find? fun i ↦ !(s.raTemplate cc i).raActive && !(s.raTemplate cc i).waitAckMsg4

/-- `initiate_ra_proc` -/
def initiateRaProc (cc preambleIndex : ℕ) (timingOffset : ℤ) (subframe fId : ℕ) (draws : ℕ → ℕ) (s : RaMac) :
    Option RaMac :=
  match s.freeProc cc with
  | none => some s
  | some i => (s.drawRnti draws).map fun rnti ↦ s.setRa cc i
    { s.raTemplate cc i with
      raActive := true, generateRar := true, generateMsg4 := false, waitAckMsg4 := false
      timingOffset := timingOffset, rnti := rnti, raRnti := 1 + subframe + 10 * fId, preambleIndex := preambleIndex }

/-- `cancel_ra_proc` -/
def cancelRaProc (cc rnti : ℕ) (s : RaMac) : RaMac :=
  { s with
    raTemplate := update s.raTemplate cc fun i ↦
      if i < nbRaProcMax ∧ rnti = (s.raTemplate cc i).rnti then (s.raTemplate cc i).cancelled
      else s.raTemplate cc i }

/-- `rrc_mac_remove_ue` -/
def rrcMacRemoveUe (rnti : ℕ) (s : RaMac) : RaMac :=
  match s.ueList.findUeId rnti with
  | none => s
  | some ue => { s with ueList := s.ueList.leaveSlot ue }.cancelRaProc (s.ueList.pCcId ue) rnti

/-- The turn of `rx_sdu` for one process when it has got a CCCH SDU; `none` if there is no place for the UE, whereupon
the eNB exits. -/
def receiveCcchProc (cc rnti harqPid : ℕ) (r : RaMac × Option ℕ) (i : ℕ) : Option (RaMac × Option ℕ) :=
  let t := r.1.raTemplate cc i
  let answered := { t with generateMsg4 := true, waitAckMsg4 := false }
  if t.rnti = rnti ∧ t.raActive then
    match r.2 with
    | some ue => some (r.1.setRa cc i answered, some ue)
    | none => r.1.ueList.freeSlot.map fun ue ↦
      ({ r.1 with ueList := r.1.ueList.takeSlot ue cc t.rnti harqPid }.setRa cc i answered, some ue)
  else some r

/-- One SDU, with its logical channel and its length. -/
def receiveSdu (cc rnti harqPid : ℕ) (r : RaMac × Option ℕ) (sdu : ℕ × ℕ) : Option (RaMac × Option ℕ) :=
  if sdu.1 = 0 ∧ sdu.2 ≤ ccchPayloadSizeMax then
    (List.range nbRaProcMax).foldlM (receiveCcchProc cc rnti harqPid) r
  else some r

/-- The UE of a PDU behind its C-RNTI control elements. -/
def ueOfPdu (rnti : ℕ) (crntis : List ℕ) (s : RaMac) : Option ℕ :=
  crntis.foldl (fun _ crnti ↦ s.ueList.findUeId crnti) (s.ueList.findUeId rnti)

/-- `rx_sdu` for a PDU with the C-RNTIs of its control elements and its SDUs. -/
def rxSdu (cc rnti harqPid : ℕ) (crntis : List ℕ) (sdus : List (ℕ × ℕ)) (s : RaMac) : Option RaMac :=
  (sdus.foldlM (receiveSdu cc rnti harqPid) (s, s.ueOfPdu rnti crntis)).map Prod.fst

/-- An eNB that has just started. -/
def started (numberOfUeMax : ℕ) : RaMac := ⟨.started numberOfUeMax, fun _ _ ↦ .zeroed⟩

end RaMac

/-- What happens to the RNTIs of an eNB: the calls, and what `schedule_RA` does to a process that has been active. -/
inductive RaEvent
  | initiate (cc preambleIndex : ℕ) (timingOffset : ℤ) (subframe fId : ℕ) (draws : ℕ → ℕ)
  | rxSdu (cc rnti harqPid : ℕ) (crntis : List ℕ) (sdus : List (ℕ × ℕ))
  | cancel (cc rnti : ℕ)
  | removeUe (rnti : ℕ)
  | rarSent (cc i : ℕ)
  | msg4Sent (cc i : ℕ)
  | msg4Acked (cc i : ℕ)

def RaMac.step : RaEvent → RaMac → Option RaMac
  | .initiate cc preambleIndex timingOffset subframe fId draws, s =>
    s.initiateRaProc cc preambleIndex timingOffset subframe fId draws
  | .rxSdu cc rnti harqPid crntis sdus, s => s.rxSdu cc rnti harqPid crntis sdus
  | .cancel cc rnti, s => some (s.cancelRaProc cc rnti)
  | .removeUe rnti, s => some (s.rrcMacRemoveUe rnti)
  | .rarSent cc i, s => some (s.setRa cc i { s.raTemplate cc i with generateRar := false })
  | .msg4Sent cc i, s =>
    some (s.setRa cc i { s.raTemplate cc i with generateMsg4 := false, waitAckMsg4 := true, raActive := false })
  | .msg4Acked cc i, s => some (s.setRa cc i { s.raTemplate cc i with waitAckMsg4 := false, raActive := false })

end EdgeSlice.Mac
