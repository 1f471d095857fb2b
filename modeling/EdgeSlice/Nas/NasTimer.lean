import EdgeSlice.LinkedQueue
import Mathlib.Algebra.Group.Nat.Defs
import Mathlib.Data.Int.Notation
import Mathlib.Data.List.FinRange
import Mathlib.Order.Bounds.Defs

/-! The timer database of the NAS layer, over the system timers of ITTI. -/

namespace EdgeSlice.Nas

def TIMER_DATABASE_SIZE : ℕ := 256

/-- An index of the database. `NAS_TIMER_INACTIVE_ID` is `none` in an `Option TimerId`. -/
abbrev TimerId := Fin TIMER_DATABASE_SIZE

/-- `struct timeval`. -/
structure TimeVal where
  tvSec : ℕ
  tvUsec : ℕ
  deriving DecidableEq

/-- What `clock_gettime` says, in microseconds. -/
structure Clock where
  sec : ℕ
  usec : ℕ
  usec_lt : usec < 1000000

/-- `nas_timer_entry_t`. The id of the system timer is not set before `timer_setup` has set it. -/
structure NasTimerEntry (γ α : Type*) where
  timerId : Option ℤ
  itv : TimeVal
  tv : TimeVal
  cb : γ
  args : α

/-- `nas_timer_database_t`, with `tq` as one function for each field and the links. -/
structure NasTimerDatabase (γ α : Type*) where
  timerId : ℕ
  id : TimerId → Option TimerId
  entry : TimerId → Option (NasTimerEntry γ α)
  links : Links TimerId

/-- A periodic timer of `timer_setup`. -/
structure SystemTimer (α : Type*) where
  intervalSec : ℕ
  setup : Clock
  timerArg : α

/-- The system timers that have been set up and not removed, and how many have been set up. -/
structure SystemTimers (α : Type*) where
  count : ℕ
  live : ℤ → Option (SystemTimer α)

structure NasTimers (γ α : Type*) where
  db : NasTimerDatabase γ α
  system : SystemTimers α

variable {γ α : Type*}

/-- `timer_setup` of a periodic timer that succeeds: `ids` are the ids that the system gives. The
interval is a `uint32_t`. -/
def timerSetup (ids : ℕ → ℤ) (intervalSec : ℕ) (timerArg : α) (now : Clock)
    (system : SystemTimers α) : ℤ × SystemTimers α :=
  let id := ids system.count
  (id, ⟨system.count + 1,
    Function.update system.live id (some ⟨intervalSec % 2 ^ 32, now, timerArg⟩)⟩)

def timerRemove (id : ℤ) (system : SystemTimers α) : SystemTimers α :=
  { system with live := Function.update system.live id none }

def _nasTimerCmp (a b : TimeVal) : ℤ :=
  if a.tvSec < b.tvSec then -1
  else if a.tvSec > b.tvSec then 1
  else if a.tvUsec < b.tvUsec then -1
  else if a.tvUsec > b.tvUsec then 1
  else 0

def _nasTimerAdd (a b : TimeVal) : TimeVal :=
  let result : TimeVal := ⟨a.tvSec + b.tvSec, a.tvUsec + b.tvUsec⟩
  if result.tvUsec > 1000000 then ⟨result.tvSec + 1, result.tvUsec - 1000000⟩ else result

namespace NasTimerDatabase

/-- From the current entry on, then from the start. -/
def _nasTimerDbGetId (db : NasTimerDatabase γ α) : Option (TimerId × NasTimerDatabase γ α) :=
  let available (i : TimerId) : Bool := (db.id i).isNone
  let all : List TimerId := List.finRange TIMER_DATABASE_SIZE
  let found :=
    (all.find? fun i ↦ decide (db.timerId ≤ i.val) && available i).or
      (all.find? fun i ↦ decide (i.val < db.timerId) && available i)
  found.map fun i ↦ (i, { db with timerId := i.val + 1 })

def _nasTimerDbIsActive (db : NasTimerDatabase γ α) : Option TimerId → Bool
  | none => false
  | some i => (db.id i).isSome

def _nasTimerDbCreateEntry (sec : ℕ) (cb : γ) (args : α) : NasTimerEntry γ α :=
  ⟨none, ⟨sec, 0⟩, ⟨sec, 0⟩, cb, args⟩

/-- `none` is a failed assertion. -/
def _nasTimerDbDeleteEntry (db : NasTimerDatabase γ α) (i : TimerId) :
    Option (NasTimerDatabase γ α) :=
  if db.id i = some i then
    some { db with id := Function.update db.id i none, entry := Function.update db.entry i none }
  else none

/-- Behind all entries that do not expire later; `none` is a read through a null pointer. -/
def _nasTimerDbInsert (db : NasTimerDatabase γ α) (i : TimerId) : Option (NasTimerDatabase γ α) :=
  (db.entry i).bind fun te ↦
    (db.links.search (fun a ↦ (db.entry a).map fun next ↦ decide (0 < _nasTimerCmp next.tv te.tv))
        TIMER_DATABASE_SIZE none db.links.head).map fun (prev, next) ↦
      { db with links := db.links.insert i prev next }

def _nasTimerDbInsertEntry (db : NasTimerDatabase γ α) (i : TimerId) (te : NasTimerEntry γ α)
    (now : Clock) : Option (NasTimerDatabase γ α) :=
  let te := { te with tv := _nasTimerAdd te.tv ⟨now.sec, now.usec⟩ }
  _nasTimerDbInsert
    { db with id := Function.update db.id i (some i), entry := Function.update db.entry i (some te) } i

/-- Whether other entries have to wait for the system timer now. -/
def _nasTimerDbRemove (db : NasTimerDatabase γ α) (i : TimerId) : Bool × NasTimerDatabase γ α :=
  let links := db.links.remove i
  ((db.links.prev i).isNone && links.head.isSome, { db with links := links })

end NasTimerDatabase

namespace NasTimers

open NasTimerDatabase

/-- The removed entry. `none` is a failed assertion, or a read of what has not been set. -/
def _nasTimerDbRemoveEntry (timers : NasTimers γ α) (i : TimerId) :
    Option (NasTimerEntry γ α × NasTimers γ α) :=
  if timers.db.id i = some i then
    let (restart, db) := timers.db._nasTimerDbRemove i
    let system : Option (SystemTimers α) :=
      if restart then
        ((db.links.head.bind db.entry).bind (·.timerId)).map (timerRemove · timers.system)
      else some timers.system
    system.bind fun system ↦ (db.entry i).map fun te ↦ (te, ⟨db, system⟩)
  else none

/-- `setup` is whether `timer_setup` succeeds. -/
def nasTimerStart (ids : ℕ → ℤ) (timers : NasTimers γ α) (sec : ℕ) (cb : γ) (args : α)
    (setup : Bool) (now : Clock) : Option (Option TimerId × NasTimers γ α) :=
  if sec = 0 then some (none, timers)
  else
    match timers.db._nasTimerDbGetId with
    | none => some (none, timers)
    | some (i, db) =>
      (db._nasTimerDbInsertEntry i (_nasTimerDbCreateEntry sec cb args) now).bind fun db ↦
        if setup then
          let (timerId, system) := timerSetup ids sec args now timers.system
          (db.entry i).map fun te ↦
            (some i, ⟨{ db with
              entry := Function.update db.entry i (some { te with timerId := some timerId }) },
              system⟩)
        else some (none, ⟨db, timers.system⟩)

def nasTimerStop (timers : NasTimers γ α) (id : Option TimerId) :
    Option (Option TimerId × NasTimers γ α) :=
  match id with
  | none => some (none, timers)
  | some i =>
    if timers.db._nasTimerDbIsActive (some i) then
      (timers._nasTimerDbRemoveEntry i).bind fun (entry, timers) ↦
        entry.timerId.bind fun timerId ↦
          (timers.db._nasTimerDbDeleteEntry i).map fun db ↦
            (none, ⟨db, timerRemove timerId timers.system⟩)
    else some (some i, timers)

def nasTimerRestart (timers : NasTimers γ α) (id : Option TimerId) (now : Clock) :
    Option (Option TimerId × NasTimers γ α) :=
  match id with
  | none => some (none, timers)
  | some i =>
    if timers.db._nasTimerDbIsActive (some i) then
      (timers._nasTimerDbRemoveEntry i).bind fun (te, timers) ↦
        (timers.db._nasTimerDbInsertEntry i { te with tv := te.itv } now).map fun db ↦
          (some i, ⟨db, timers.system⟩)
    else some (none, timers)

/-- The callback that is run, with its arguments: that of the first entry of the queue. -/
def nasTimerHandleSignalExpiry (timers : NasTimers γ α) : Option (γ × α) :=
  (timers.db.links.head.bind timers.db.entry).map fun te ↦ (te.cb, te.args)

/-- After `nas_timer_init`. -/
def init : NasTimers γ α where
  db := ⟨0, fun _ ↦ none, fun _ ↦ none, ⟨none, fun _ ↦ none, fun _ ↦ none⟩⟩
  system := ⟨0, fun _ ↦ none⟩

end NasTimers

end EdgeSlice.Nas

/-! Runs of the timer database, beside the timers that have been started and not stopped. -/

namespace EdgeSlice.Nas

variable {γ α : Type*}

def Clock.micros (now : Clock) : ℕ := now.sec * 1000000 + now.usec

/-- A system timer that is live expires again and again. -/
def SystemTimer.ExpiresAt (timer : SystemTimer α) (time : ℕ) : Prop :=
  ∃ k, 0 < k ∧ time = timer.setup.micros + k * (timer.intervalSec * 1000000)

/-- A timer that has been started: when, when it was last started or restarted, and its system
timer. -/
structure Started (γ α : Type*) where
  cb : γ
  args : α
  sec : ℕ
  start : Clock
  since : Clock
  systemId : ℤ

def Started.due (t : Started γ α) : ℕ := t.since.micros + t.sec * 1000000

/-- The database, and what its user knows: the timers that have been started and not stopped. -/
structure TimerState (γ α : Type*) where
  timers : NasTimers γ α
  started : TimerId → Option (Started γ α)

namespace TimerState

def init : TimerState γ α := ⟨.init, fun _ ↦ none⟩

def queue (s : TimerState γ α) : List TimerId :=
  s.timers.db.links.walk TIMER_DATABASE_SIZE s.timers.db.links.head

def due (s : TimerState γ α) (i : TimerId) : ℕ := (s.started i).elim 0 (·.due)

/-- `setup` is whether `timer_setup` succeeds. The system timer of entry `i` expires only while it is
live. -/
inductive Event (γ α : Type*)
  | start (sec : ℕ) (cb : γ) (args : α) (setup : Bool) (now : Clock)
  | stop (id : Option TimerId)
  | restart (id : Option TimerId) (now : Clock)
  | expiry (i : TimerId)

/-- What a call returns, and the callback that an expiry runs. -/
structure Output (γ α : Type*) where
  id : Option TimerId
  ran : Option (γ × α)

/-- `none` is an access that fails. -/
def step (ids : ℕ → ℤ) (s : TimerState γ α) : Event γ α → Option (TimerState γ α × Output γ α)
  | .start sec cb args setup now =>
    (s.timers.nasTimerStart ids sec cb args setup now).map fun (id, timers) ↦
      match id with
      | none => (⟨timers, s.started⟩, ⟨none, none⟩)
      | some i =>
        (⟨timers, Function.update s.started i
          (some ⟨cb, args, sec, now, now, ids s.timers.system.count⟩)⟩, ⟨some i, none⟩)
  | .stop id =>
    (s.timers.nasTimerStop id).map fun (id', timers) ↦
      (⟨timers, id.elim s.started fun i ↦ Function.update s.started i none⟩, ⟨id', none⟩)
  | .restart id now =>
    (s.timers.nasTimerRestart id now).map fun (id', timers) ↦
      (⟨timers, id.elim s.started fun i ↦
        Function.update s.started i ((s.started i).map ({ · with since := now }))⟩, ⟨id', none⟩)
  | .expiry i =>
    match (((s.timers.db.entry i).bind (·.timerId)).bind s.timers.system.live) with
    | none => some (s, ⟨none, none⟩)
    | some _ => s.timers.nasTimerHandleSignalExpiry.map fun ran ↦ (s, ⟨none, some ran⟩)

/-- The queue holds the started timers in the order in which they are due, and each one's system timer
is live and expires one full duration after the timer was started or restarted. -/
structure Isolated (s : TimerState γ α) : Prop where
  nodup : s.queue.Nodup
  mem : ∀ i, i ∈ s.queue ↔ (s.started i).isSome
  sorted : s.queue.Pairwise fun i j ↦ s.due i ≤ s.due j
  live : ∀ i t, s.started i = some t → ∃ timer, s.timers.system.live t.systemId = some timer ∧
    IsLeast {time | t.since.micros < time ∧ timer.ExpiresAt time} t.due

/-- A start gives a number that is not in use, and an expiry of a timer runs its own callback. -/
def Answers (s : TimerState γ α) : Event γ α → Output γ α → Prop
  | .start .., out => ∀ i, out.id = some i → s.started i = none
  | .expiry i, out => ∀ t, s.started i = some t → out.ran = some (t.cb, t.args)
  | _, _ => True

/-- Every step of a run goes through, is answered as it should be, and leaves the timers isolated. -/
def RunsIsolated (ids : ℕ → ℤ) : TimerState γ α → List (Event γ α) → Prop
  | s, [] => s.Isolated
  | s, e :: es => s.Isolated ∧ ∃ s' out, s.step ids e = some (s', out) ∧ s.Answers e out ∧
    RunsIsolated ids s' es

/-- Entry `i` is not the first one of several. -/
def NotFirst (s : TimerState γ α) (i : TimerId) : Prop := s.queue.head? = some i → s.queue = [i]

/-- What the database can do: a start that takes an entry has a system timer, and a duration that fits
it; no timer is stopped or restarted that is the first of several; a restart comes a whole number of
durations after the start; and an expiry finds its own callback at the first timer. -/
def Meets (s : TimerState γ α) : Event γ α → Prop
  | .start sec _ _ setup _ =>
    sec ≠ 0 → (∃ i, s.timers.db.id i = none) → setup = true ∧ sec < 2 ^ 32
  | .stop id => ∀ i, id = some i → (s.started i).isSome → s.NotFirst i
  | .restart id now => ∀ i t, id = some i → s.started i = some t →
    s.NotFirst i ∧ ∃ k, now.micros = t.start.micros + k * (t.sec * 1000000)
  | .expiry i => ∀ t, s.started i = some t →
    ∃ j u, s.queue.head? = some j ∧ s.started j = some u ∧ u.cb = t.cb ∧ u.args = t.args

def AllMeet (ids : ℕ → ℤ) : TimerState γ α → List (Event γ α) → Prop
  | _, [] => True
  | s, e :: es => s.Meets e ∧ ∀ s' out, s.step ids e = some (s', out) → AllMeet ids s' es

end TimerState

end EdgeSlice.Nas
