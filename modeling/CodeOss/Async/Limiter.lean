import Mathlib

/-! `Limiter`: tasks that wait for a place to run. A factory or a listener may call the limiter
while it runs, so the state keeps the call stack, and the environment moves whenever code that is
not the limiter's own is on top of it. The limiter is one that is not disposed. -/

namespace CodeOss.Async

/-- What `queue` puts by: the factory, and the promise that `c` and `e` settle. -/
structure LimitedTask where
  factory : ℕ
  promise : ℕ
  deriving DecidableEq, Repr

structure Limiter where
  size : ℕ
  runningPromises : ℕ
  outstandingPromises : List LimitedTask
  deriving DecidableEq, Repr

inductive Frame
  /-- The loop of `consume`, called by the executor of a promise or by `consumed`. -/
  | consume (executor : Option ℕ)
  | factory (task : LimitedTask)
  | drained
  deriving DecidableEq, Repr

/-- What an observer sees; `ω` is what a promise settles with. -/
inductive Happening (ω : Type)
  | queued (task : ℕ)
  | started (task : ℕ)
  /-- The task's promise settles, and with it a promise that `queue` returned. -/
  | settled (task promise : ℕ) (outcome : ω)
  /-- The factory throws, and the promise whose executor called it is rejected. -/
  | threw (task : ℕ) (executor : Option ℕ) (outcome : ω)
  | cleared
  | drained
  deriving DecidableEq, Repr

/-- `running` are the tasks whose factory has returned and whose promise has not settled; the
history's last entry comes first. -/
structure State (ω : Type) where
  limiter : Limiter
  stack : List Frame
  running : List LimitedTask
  history : List (Happening ω)

variable {ω : Type}

namespace Happening

variable (history : List (Happening ω))

def queuedTasks : List ℕ :=
  history.filterMap fun
    | queued task => some task
    | _ => none

def startedTasks : List ℕ :=
  history.filterMap fun
    | started task => some task
    | _ => none

def settledTasks : List ℕ :=
  history.filterMap fun
    | settled task _ _ => some task
    | threw task _ _ => some task
    | _ => none

def thrownTasks : List ℕ :=
  history.filterMap fun
    | threw task _ _ => some task
    | _ => none

def unsettled : List ℕ :=
  (startedTasks history).filter (· ∉ settledTasks history)

def waiting : List (Happening ω) → List ℕ
  | [] => []
  | queued task :: history => waiting history ++ [task]
  | started task :: history => (waiting history).erase task
  | cleared :: _ => []
  | _ :: history => waiting history

def RunsDry : Prop :=
  (∃ task promise outcome, history.head? = some (settled task promise outcome)) ∧
    unsettled history = [] ∧ waiting history = []

end Happening

namespace State

def init : State ω := ⟨⟨0, 0, []⟩, [], [], []⟩

variable (state : State ω)

def happen (happening : Happening ω) : State ω :=
  { state with history := happening :: state.history }

def yields : List Frame → Bool
  | .consume _ :: _ => false
  | _ => true

/-- `queue`, up to the loop of `consume`. -/
def queue (task : ℕ) : State ω :=
  { state with
    limiter := { state.limiter with
      size := state.limiter.size + 1
      outstandingPromises := state.limiter.outstandingPromises ++ [⟨task, task⟩] }
    stack := .consume (some task) :: state.stack
    history := .queued task :: state.history }

def clear : State ω :=
  { state with
    limiter := { state.limiter with
      size := state.limiter.runningPromises
      outstandingPromises := [] }
    history := .cleared :: state.history }

/-- What follows `onDrained` in `consumed`. -/
def consumeRest : State ω :=
  if state.limiter.outstandingPromises.length > 0 then
    { state with stack := .consume none :: state.stack }
  else state

def consumed : State ω :=
  let limiter := { state.limiter with
    runningPromises := state.limiter.runningPromises - 1
    size := state.limiter.size - 1 }
  if limiter.size = 0 then
    { state with limiter, stack := .drained :: state.stack, history := .drained :: state.history }
  else { state with limiter }.consumeRest

end State

inductive Event (ω : Type)
  /-- A call of `queue` with a factory of its own. -/
  | queue (task : ℕ)
  | clear
  /-- The loop of `consume` goes around or ends. -/
  | loop
  | returns
  | throws (outcome : ω)
  /-- The listeners of `onDrained` are done. -/
  | heard
  | settle (task : LimitedTask) (outcome : ω)

open State Happening

def step (maxDegreeOfParalellism : ℕ) (state : State ω) : Event ω → Option (State ω)
  | .queue task =>
    if yields state.stack ∧ task ∉ queuedTasks state.history then some (state.queue task)
    else none
  | .clear => if yields state.stack then some state.clear else none
  | .loop =>
    match state.stack, state.limiter.outstandingPromises with
    | .consume executor :: stack, task :: outstandingPromises =>
      if state.limiter.runningPromises < maxDegreeOfParalellism then
        some { state with
          limiter := { state.limiter with
            runningPromises := state.limiter.runningPromises + 1
            outstandingPromises }
          stack := .factory task :: .consume executor :: stack
          history := .started task.factory :: state.history }
      else some { state with stack }
    | .consume _ :: stack, [] => some { state with stack }
    | _, _ => none
  | .returns =>
    match state.stack with
    | .factory task :: stack => some { state with stack, running := task :: state.running }
    | _ => none
  | .throws outcome =>
    match state.stack with
    | .factory task :: .consume executor :: stack =>
      some ({ state with stack }.happen (.threw task.factory executor outcome))
    | _ => none
  | .heard =>
    match state.stack with
    | .drained :: stack => some { state with stack }.consumeRest
    | _ => none
  | .settle task outcome =>
    if state.stack = [] ∧ task ∈ state.running then
      some ({ state with running := state.running.erase task }.happen
        (.settled task.factory task.promise outcome)).consumed
    else none

def run (maxDegreeOfParalellism : ℕ) (events : List (Event ω)) : Option (State ω) :=
  events.foldlM (step maxDegreeOfParalellism) init

structure Exact (maxDegreeOfParalellism : ℕ) (state : State ω) : Prop where
  degree : (unsettled state.history).length ≤ maxDegreeOfParalellism
  runningPromises : state.limiter.runningPromises = (unsettled state.history).length
  size : state.limiter.size = (unsettled state.history).length + (waiting state.history).length
  outstanding : state.limiter.outstandingPromises.map (·.factory) = waiting state.history
  full : waiting state.history ≠ [] →
    (unsettled state.history).length = maxDegreeOfParalellism
  order : (startedTasks state.history).Sublist (queuedTasks state.history)
  once : (queuedTasks state.history).Nodup
  dries : ∀ later earlier, state.history = later ++ .drained :: earlier → RunsDry earlier
  drains : ∀ later earlier, state.history = later ++ earlier → RunsDry earlier →
    ∃ before, later = before ++ [.drained]
  promises : ∀ task promise outcome, .settled task promise outcome ∈ state.history →
    promise = task

/-- No factory throws instead of returning a promise. -/
def NeverThrows (events : List (Event ω)) : Prop := ∀ outcome, .throws outcome ∉ events

end CodeOss.Async
