/-
# Running tasks in a pool

A pool runs numbered tasks, started in order, with a bound on how many run at once.  With the bound
zero every task runs in place: nothing else happens until it has finished.

A run is a transition system.  Before each task the pool asks whether the run was cancelled, then
whether a task has failed; if neither, it starts the task as soon as there is room.  Started tasks
finish in any order, and the first failure that is recorded is kept.  In the end the pool waits
until no task runs, and returns.

`step` says which changes are possible, under every interleaving.  `run` follows one of them, in
which every task finishes before the next one is asked for.
-/
import ConvNest.Text.Basic

namespace ConvNest.Pool

/-- Why a run did not succeed. -/
inductive Stop (ε : Type) where
  /-- The run was cancelled after some tasks were started. -/
  | interrupted (started count : Nat)
  /-- A task failed. -/
  | failed (e : ε)
  deriving DecidableEq, Repr, Inhabited

/-- The text of a stop, given the text of a failure. -/
def Stop.message {ε : Type} (text : ε → String) : Stop ε → String
  | interrupted k n =>
    s!"workerspool: interrupted after starting {Text.count k} of {Text.count n} tasks: " ++
      "context canceled"
  | failed e => text e

/-- What a pool is asked to run. -/
structure Job (ε : Type) where
  /-- The number of tasks. -/
  count : Nat
  /-- How many tasks may run at once; zero runs them in place. -/
  parallelism : Nat
  /-- How a task fails, if it does. -/
  failure : Nat → Option ε

/-- What the pool does next. -/
inductive Phase (ε : Type) where
  /-- Ask whether the run was cancelled. -/
  | poll
  /-- Ask whether a task has failed. -/
  | examine
  /-- Start the next task. -/
  | launch
  /-- Wait for the tasks that run, and return. -/
  | drain (interrupted : Bool)
  /-- Nothing. -/
  | returned (result : Except (Stop ε) Unit)
  deriving Inhabited

/-- The state of a run. -/
structure State (ε : Type) where
  /-- How many tasks were started: these are the first ones. -/
  started : Nat
  /-- The tasks that run, oldest first. -/
  running : List Nat
  /-- The tasks that have finished, oldest first. -/
  finished : List Nat
  /-- The first failure that was recorded. -/
  failure : Option ε
  cancelled : Bool
  phase : Phase ε
  deriving Inhabited

/-- What can happen in a run. -/
inductive Action where
  /-- The pool does what it does next. -/
  | advance
  /-- A task finishes. -/
  | finish (task : Nat)
  /-- Someone cancels the run. -/
  | cancel
  deriving DecidableEq, Repr, Inhabited

variable {ε : Type}

/-- The state before a run. -/
def initial (cancelled : Bool) : State ε := ⟨0, [], [], none, cancelled, .poll⟩

/-- How many tasks may run at once. -/
def Job.room (j : Job ε) : Nat := max j.parallelism 1

/-- Whether the pool has to wait for a task that runs in place. -/
def Job.blocked (j : Job ε) (s : State ε) : Bool := j.parallelism == 0 && !s.running.isEmpty

/-- What the pool does next, unless it has to wait. -/
def advance (j : Job ε) (s : State ε) : Option (State ε) :=
  match s.phase with
  | .poll =>
    if s.started < j.count then
      some { s with phase := if s.cancelled then .drain true else .examine }
    else some { s with phase := .drain false }
  | .examine => some { s with phase := if s.failure.isSome then .drain false else .launch }
  | .launch =>
    if s.running.length < j.room then
      some { s with
        started := s.started + 1
        running := s.running ++ [s.started]
        phase := .poll }
    else none
  | .drain interrupted =>
    if s.running.isEmpty then
      let result : Except (Stop ε) Unit :=
        if interrupted then .error (.interrupted s.started j.count)
        else match s.failure with
          | some e => .error (.failed e)
          | none => .ok ()
      some { s with phase := .returned result }
    else none
  | .returned _ => none

/-- The state after an action, if the action is possible. -/
def step (j : Job ε) (s : State ε) : Action → Option (State ε)
  | .advance => if j.blocked s then none else advance j s
  | .finish i =>
    if s.running.contains i then
      some { s with
        running := s.running.erase i
        finished := s.finished ++ [i]
        failure := s.failure.or (j.failure i) }
    else none
  | .cancel => some { s with cancelled := true }

/-- What happens next in the run in which every task finishes at once, and the task `canceller`
cancels the run just before it finishes. -/
def nextAction (canceller : Option Nat) (s : State ε) : Action :=
  match s.running with
  | i :: _ => if canceller = some i ∧ !s.cancelled then .cancel else .finish i
  | [] => .advance

/-- At most `fuel` steps of that run. -/
def follow (j : Job ε) (canceller : Option Nat) : Nat → State ε → State ε
  | 0, s => s
  | fuel + 1, s =>
    match step j s (nextAction canceller s) with
    | some t => follow j canceller fuel t
    | none => s

/-- The end of the run in which every task finishes before the next one is asked for.  A task takes
at most five steps. -/
def run (j : Job ε) (cancelled : Bool) (canceller : Option Nat) : State ε :=
  follow j canceller (5 * j.count + 5) (initial cancelled)

/-- What a finished run returned. -/
def State.result (s : State ε) : Except (Stop ε) Unit :=
  match s.phase with
  | .returned r => r
  | _ => .ok ()

end ConvNest.Pool
