import EdgeSlice.Sdn.RequestQueue

namespace EdgeSlice.Sdn.TaskTrigger

open RequestQueue (Param Entry)

variable {F : Type}

def firstLine (t : Text) : Text := t.takeWhile fun c ↦ c ≠ '\n' ∧ c ≠ '\r'

/-- The loop of `SDN_query` over the commas of a task, from its `i`-th piece: whether it
resets the trigger, and the list, unless the last number raises an exception. -/
def queryPieces (φ : FloatText F) : ℕ → List Text → Bool × Option (List (Param F))
  | _, [] => (false, some [])
  | _, [last] =>
    (false,
      if 0 < last.length then (φ.float (firstLine last)).map fun x ↦ [.number x] else some [])
  | i, piece :: rest =>
    let (reset, param) := queryPieces φ (i + 1) rest
    if i % 2 = 0 then (reset, param.map (.text piece :: ·))
    else
      match φ.float piece with
      | some x => (reset, param.map (.number x :: ·))
      | none => (true, param)

def queryParam (φ : FloatText F) (nextTask : Text) : Bool × Option (List (Param F)) :=
  queryPieces φ 0 (nextTask.splitOn ',')

def toFloat (φ : FloatText F) : Param F → Option F
  | .text t => φ.float t
  | .number x => some x

/-- `current_task` in `cont_config_SDN`, for at most `n` users. -/
def currentTask (φ : FloatText F) : ℕ → List (Param F) → Option (List Text)
  | 0, _ => some []
  | _ + 1, [] => none
  | _ + 1, [address] => if (address.str φ).Finds "155.0." then none else some []
  | n + 1, address :: bandwidth :: rest =>
    if (address.str φ).Finds "155.0." then do
      let x ← toFloat φ bandwidth
      let task ← currentTask φ n rest
      return address.str φ :: φ.str x :: task
    else some []

/-- What is sent to the SDN controller for a current task. -/
def taskMessage (φ : FloatText F) : List Text → Option Text
  | address₁ :: bandwidth₁ :: address₂ :: bandwidth₂ :: _ => do
    let x₁ ← φ.float bandwidth₁
    let x₂ ← φ.float bandwidth₂
    return address₁ ++ ',' :: φ.str x₁ ++ ',' :: address₂ ++ ',' :: φ.str x₂
  | _ => none

/-- `cont_config_SDN` is called with a list that names a node. -/
def NamesNode (φ : FloatText F) (param : List (Param F)) : Prop :=
  0 < param.length ∧ (Entry.str φ (some param)).Finds "155.0."

instance (φ : FloatText F) (param : List (Param F)) : Decidable (NamesNode φ param) :=
  inferInstanceAs (Decidable (_ ∧ _))

def nou : ℕ := 2

inductive Update
  | archived
  | queued
  | other

/-- The local variables of `continuous_couchDB_query_trigger`. -/
structure Notifier where
  frou : ℕ
  archFlag : Bool

/-- What one update does, and whether it counts as a trigger. -/
def Notifier.update (n : Notifier) : Update → Notifier × Bool
  | .archived =>
    if n.archFlag then ({ n with archFlag := false }, false)
    else if n.frou < 2 then ({ n with frou := n.frou + 1 }, false)
    else (n, true)
  | .queued =>
    if n.archFlag then (n, true)
    else if n.frou < 2 then ({ n with frou := n.frou + 1 }, false)
    else ({ n with archFlag := true }, true)
  | .other => (n, true)

inductive SdnStatus
  | ready
  | inProgress
  deriving DecidableEq

/-- Where `init_couchDB_trigger` is. -/
inductive InitThread
  | waiting
  | configuring
  | counting
  | finished

/-- Where `SDN_query` is, in itself or in the functions that it calls. -/
inductive Query (F : Type)
  | idle
  | querying
  | answered (nextTask : Text)
  | overwriting
  | configuring (param : List (Param F))
  | completing
  | clearing (noTask : Bool)
  | finishing
  | dead

/-- The ledger with the tasks that are not archived and the number of its notifications on
their way, the threads, and the tasks taken by queries and the messages sent. -/
structure DApp (F : Type) where
  ledger : List Text
  pending : ℕ
  notifier : Notifier
  initThread : InitThread
  query : Query F
  queryTrigger : ℤ
  sdnStatus : SdnStatus
  taken : List Text
  sent : List Text

def DApp.init : DApp F := ⟨[], 0, ⟨0, false⟩, .waiting, .idle, 0, .ready, [], []⟩

/-- A task is queued on the ledger; its notification arrives, within the first five seconds
or `late`; the ledger answers a query, unless the payload is lost; the controller and the
ledger confirm a configuration or not; or a thread takes its next step. -/
inductive Event
  | enqueue (task : Text)
  | notify (late : Bool)
  | answer (lost : Bool)
  | complete (confirmed : Bool)
  | initTurn
  | queryTurn

namespace DApp

variable (φ : FloatText F) (s : DApp F)

def notify (late : Bool) : Option (DApp F) :=
  if 0 < s.pending then
    let (notifier, counted) :=
      (if late then { s.notifier with frou := 2 } else s.notifier).update .queued
    some { s with
      pending := s.pending - 1
      notifier := notifier
      queryTrigger := if counted then s.queryTrigger + 1 else s.queryTrigger }
  else none

def initTurn : Option (DApp F) :=
  match s.initThread with
  | .waiting =>
    if s.sdnStatus = .ready then
      some { s with sdnStatus := .inProgress, initThread := .configuring }
    else none
  | .configuring => some { s with sdnStatus := .ready, initThread := .counting }
  | .counting => some { s with queryTrigger := s.queryTrigger + 1, initThread := .finished }
  | .finished => none

/-- The ledger answers with its first task. A lost payload leads to another query. -/
def answer (lost : Bool) : Option (DApp F) :=
  match s.query with
  | .querying =>
    if lost then some { s with query := .idle }
    else
      match s.ledger with
      | [] => some { s with query := .answered "No Task Available".toList }
      | task :: _ => some { s with query := .answered task, taken := s.taken ++ [task] }
  | _ => none

/-- The ledger archives the confirmed task and tells whether there is another. -/
def complete (confirmed : Bool) : Option (DApp F) :=
  match s.query with
  | .completing =>
    if confirmed then
      some { s with ledger := s.ledger.tail, query := .clearing s.ledger.tail.isEmpty }
    else some { s with sdnStatus := .ready, query := .finishing }
  | _ => none

/-- `cont_config_SDN` up to the answer of the SDN controller. -/
def contConfigSDN (param : List (Param F)) : DApp F :=
  if NamesNode φ param then
    match currentTask φ nou param with
    | none => { s with query := .dead }
    | some task =>
      if s.sdnStatus = .ready then
        match taskMessage φ task with
        | none => { s with sdnStatus := .inProgress, query := .dead }
        | some message =>
          { s with sdnStatus := .inProgress, query := .completing, sent := s.sent ++ [message] }
      else { s with query := .finishing }
  else { s with query := .finishing }

/-- The part of `SDN_query` that looks at the answer. -/
def takeAnswer (nextTask : Text) : DApp F :=
  if nextTask.Finds "155.0." then
    let (reset, param) := queryParam φ nextTask
    { s with
      queryTrigger := if reset then 1 else s.queryTrigger
      query := param.elim .dead .configuring }
  else if nextTask.Finds "No Task Available" then
    if 1 < s.queryTrigger then { s with query := .overwriting } else { s with query := .finishing }
  else { s with query := .finishing }

def queryTurn : Option (DApp F) :=
  match s.query with
  | .idle => if 0 < s.queryTrigger then some { s with query := .querying } else some s
  | .answered nextTask => some (s.takeAnswer φ nextTask)
  | .overwriting => some { s with queryTrigger := 1, query := .finishing }
  | .configuring param => some (s.contConfigSDN φ param)
  | .clearing noTask =>
    some { s with
      queryTrigger := if noTask then 1 else s.queryTrigger
      sdnStatus := .ready
      query := .finishing }
  | .finishing => some { s with queryTrigger := s.queryTrigger - 1, query := .idle }
  | .querying | .completing | .dead => none

def step (s : DApp F) : Event → Option (DApp F)
  | .enqueue task => some { s with ledger := s.ledger ++ [task], pending := s.pending + 1 }
  | .notify late => s.notify late
  | .answer lost => s.answer lost
  | .complete confirmed => s.complete confirmed
  | .initTurn => s.initTurn
  | .queryTurn => s.queryTurn φ

end DApp

end EdgeSlice.Sdn.TaskTrigger
