import EdgeSlice.Progress
import Mathlib.Data.List.Infix
import Mathlib.Data.List.Forall2

namespace EdgeSlice.Sdn

/-- A string of bytes. -/
abbrev Text := List Char

namespace Text

/-- `find` gives an index. -/
def Finds (t : Text) (s : String) : Prop := s.toList <:+: t

instance (t : Text) (s : String) : Decidable (t.Finds s) :=
  inferInstanceAs (Decidable (s.toList <:+: t))

def hexDigit (n : ℕ) : Char := "0123456789abcdef".toList.getD n '0'

def reprChar (quote c : Char) : Text :=
  if c = quote ∨ c = '\\' then ['\\', c]
  else if c = '\t' then ['\\', 't']
  else if c = '\n' then ['\\', 'n']
  else if c = '\r' then ['\\', 'r']
  else if c.toNat < 32 ∨ 127 ≤ c.toNat then
    ['\\', 'x', hexDigit (c.toNat / 16), hexDigit (c.toNat % 16)]
  else [c]

/-- `repr` quotes with 39, or with 34 where only 39 occurs in the text. -/
def repr (t : Text) : Text :=
  let quote := if Char.ofNat 39 ∈ t ∧ Char.ofNat 34 ∉ t then Char.ofNat 34 else Char.ofNat 39
  quote :: t.flatMap (reprChar quote) ++ [quote]

end Text

/-- The texts of the floating point numbers: `float`, which may raise a `ValueError`, `str`
and `repr`. -/
structure FloatText (F : Type) where
  float : Text → Option F
  str : F → Text
  repr : F → Text

namespace RequestQueue

variable {F : Type}

/-- An entry of the list `param`. -/
inductive Param (F : Type)
  | text (t : Text)
  | number (x : F)

def Param.str (φ : FloatText F) : Param F → Text
  | .text t => t
  | .number x => φ.str x

def Param.repr (φ : FloatText F) : Param F → Text
  | .text t => t.repr
  | .number x => φ.repr x

/-- An entry of `queue_param`: a list, or the empty string the queue starts with. -/
abbrev Entry (F : Type) := Option (List (Param F))

/-- `str` of an entry. -/
def Entry.str (φ : FloatText F) : Entry F → Text
  | none => []
  | some param => '[' :: ", ".toList.intercalate (param.map (Param.repr φ)) ++ [']']

def totalResponse (φ : FloatText F) : Entry F → Text
  | none => []
  | some param => ",".toList.intercalate (param.map (Param.str φ))

/-- What the collector takes for a request. -/
def IsRequest (param1 : Text) : Prop := param1.Finds "155.0." ∨ param1.Finds "172.16."

/-- What the executor takes for a request. -/
def IsExecutable (φ : FloatText F) (entry : Entry F) : Prop :=
  (entry.str φ).Finds "155.0.0" ∨ (entry.str φ).Finds "172.16.0"

def HasStatus (line : Text) : Prop := line.Finds "ERROR" ∨ line.Finds "Complete!"

instance : DecidablePred IsRequest := fun _ ↦ inferInstanceAs (Decidable (_ ∨ _))

instance (φ : FloatText F) : DecidablePred (IsExecutable φ) :=
  fun _ ↦ inferInstanceAs (Decidable (_ ∨ _))

instance : DecidablePred HasStatus := fun _ ↦ inferInstanceAs (Decidable (_ ∨ _))

/-- The loop over the commas of a message, from its `i`-th piece. -/
def collectPieces (φ : FloatText F) : ℕ → List Text → Option (List (Param F))
  | _, [] => some []
  | _, [last] => if 0 < last.length then (φ.float last).map fun x ↦ [.number x] else some []
  | i, piece :: rest => do
    let p ← if i % 2 = 0 then some (.text piece) else (φ.float piece).map .number
    let param ← collectPieces φ (i + 1) rest
    return p :: param

def collectParam (φ : FloatText F) (param1 : Text) : Option (List (Param F)) :=
  collectPieces φ 0 (param1.splitOn ',')

inductive Thread
  | collector
  | executor
  deriving DecidableEq

/-- Where `collect_parameters` is. -/
inductive Collector (F : Type)
  | receiving
  | acquiring (param : List (Param F))
  | appending (param : List (Param F))
  | releasing
  | dead

/-- Where `execute_queued_params` is. While it is `reading`, the lines of `output` are
still to come from the script. -/
inductive Executor (F : Type)
  | scanning
  | reading (output : List Text)
  | answering (sob : Text)
  | acquiring
  | slicing
  | assigning (rest : List (Entry F))
  | releasing
  | dead

/-- The variables that the threads share, with what was queued, executed and sent. A
status line goes to the connection that is current then. -/
structure Server (F : Type) where
  collector : Collector F
  executor : Executor F
  lock : Option Thread
  queueParam : List (Entry F)
  controller : ℕ
  queued : List (List (Param F))
  executed : List (List (Param F))
  answers : List (ℕ × Text)

def Server.init : Server F := ⟨.receiving, .scanning, none, [none], 0, [], [], []⟩

/-- A message arrives, a script starts with the output it will have, or a thread takes its
next step. -/
inductive Event
  | recv (param1 : Text)
  | start (output : List Text)
  | turn (thread : Thread)

def Event.thread : Event → Thread
  | .recv _ => .collector
  | .start _ => .executor
  | .turn thread => thread

namespace Server

variable (φ : FloatText F) (s : Server F)

/-- `collect_parameters` between `recv` and the queue. The conversions stand outside its
`try`, so that a `ValueError` ends the thread. -/
def receive (param1 : Text) : Option (Server F) :=
  match s.collector with
  | .receiving =>
    if param1.length = 0 then some { s with controller := s.controller + 1 }
    else if IsRequest param1 then
      match collectParam φ param1 with
      | some param => some { s with collector := .acquiring param }
      | none => some { s with collector := .dead }
    else some s
  | _ => none

def collectorTurn : Option (Server F) :=
  match s.collector with
  | .acquiring param =>
    if s.lock = none then some { s with lock := some .collector, collector := .appending param }
    else none
  | .appending param =>
    some { s with
      queueParam := s.queueParam ++ [some param]
      queued := s.queued ++ [param]
      collector := .releasing }
  | .releasing => some { s with lock := none, collector := .receiving }
  | .receiving | .dead => none

/-- The script is executed for the head of the queue. -/
def start (output : List Text) : Option (Server F) :=
  match s.executor, s.queueParam with
  | .scanning, some param :: _ =>
    if IsExecutable φ (some param) then
      some { s with executor := .reading output, executed := s.executed ++ [param] }
    else none
  | _, _ => none

def statusLine (sob : Text) (entry : Entry F) : Text :=
  (if sob.Finds "ERROR" then "ERROR:"
    else if sob.Finds "Complete!" then "COMPLETE:"
    else "PROBLEM:").toList ++ totalResponse φ entry

/-- `readline` gives the empty string after the last line, for ever. -/
def executorTurn : Option (Server F) :=
  match s.executor with
  | .scanning =>
    match s.queueParam with
    | [] => some s
    | entry :: _ => if IsExecutable φ entry then none else some { s with executor := .acquiring }
  | .reading [] => some s
  | .reading (sobTest :: output) =>
    if HasStatus sobTest then some { s with executor := .answering sobTest }
    else some { s with executor := .reading output }
  | .answering sob =>
    match s.queueParam with
    | [] => some { s with executor := .dead }
    | entry :: _ =>
      some { s with
        executor := .acquiring
        answers := s.answers ++ [(s.controller, statusLine φ sob entry)] }
  | .acquiring =>
    if s.lock = none then some { s with lock := some .executor, executor := .slicing } else none
  | .slicing => some { s with executor := .assigning (s.queueParam.drop 1) }
  | .assigning rest => some { s with queueParam := rest, executor := .releasing }
  | .releasing => some { s with lock := none, executor := .scanning }
  | .dead => none

def step (s : Server F) : Event → Option (Server F)
  | .recv param1 => s.receive φ param1
  | .start output => s.start φ output
  | .turn .collector => s.collectorTurn
  | .turn .executor => s.executorTurn φ

end Server

end RequestQueue

end EdgeSlice.Sdn
