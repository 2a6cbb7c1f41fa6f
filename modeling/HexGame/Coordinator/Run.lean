import HexGame.Coordinator.Protocol

/-!
# Running a coordinator

One way to run the whole system: whenever the coordinator can act it does, and otherwise the first
worker that can. While the coordinator takes in a report, the workers do all that they can. A run that needs
too many actions is stopped from outside and then comes to its end.
-/
namespace HexGame
namespace Coordinator

variable {G : Type} [ChoiceSource G]

/-- Works on a task for as many iterations as its time is good for, and harvests the tree. -/
def runTask (c : Config) (e : Evaluator) (task : Task G) : TaskOutcome :=
  match task.search.iterateTimes c.iterations with
  | .error fault => .faulted fault
  | .ok search =>
    match search.harvest e c.threshold with
    | .error cause => .failed cause
    | .ok harvest => .reported c.iterations search.root.value search.root.size harvest

def workerAction (c : Config) (e : Evaluator) (s : State G) (w : Nat) : Worker G → Option Action
  | .waiting =>
    if 0 < s.quitSigns then some (.takeQuit w)
    else if s.queue.isEmpty then none
    else some (.takeTask w)
  | .running task => some (.finishTask w (runTask c e task))
  | .leaving => some (.announceEnd w)
  | .closing => some (.dropReports w)
  | .parting => some (.dropNotices w)
  | .gone => none

/-- The first worker that can act, counting from `w`. -/
def firstWorkerAction (c : Config) (e : Evaluator) (s : State G) (w : Nat) :
    List (Worker G) → Option Action
  | [] => none
  | x :: xs =>
    match workerAction c e s w x with
    | some a => some a
    | none => firstWorkerAction c e s (w + 1) xs

/-- What the coordinator can do. The channels are looked at in turn: stop signals, reports, notices. -/
def coordinatorAction (s : State G) : Option Action :=
  match s.phase with
  | .serving =>
    if s.stopWatched && 0 < s.stopSigns then some .takeStop
    else if s.stopWatched && !s.stopHeld then some .noticeStopDropped
    else if !s.reports.isEmpty then some .takeReport
    else if s.reportsClosed then some .noticeReportsClosed
    else if !s.notices.isEmpty then some .takeNotice
    else none
  | .filling => some .prepareTask
  | .queueing _ => some .queueTask
  | .draining _ => some .drain
  | .quitting _ _ => some .sendQuit
  | .awaiting _ _ => if s.notices.isEmpty then none else some .takeAcknowledgement
  | .joining _ => if s.allGone then some .join else none
  | .returned _ => none

def nextAction (c : Config) (e : Evaluator) (s : State G) : Option Action :=
  match coordinatorAction s with
  | some a => some a
  | none => firstWorkerAction c e s 0 s.workers

/-- The workers go on while the coordinator is busy. -/
def letWork (c : Config) (e : Evaluator) : Nat → State G → State G
  | 0, s => s
  | n + 1, s =>
    match (firstWorkerAction c e s 0 s.workers).bind (s.step c) with
    | some s => letWork c e n s
    | none => s

/-- An action and what goes on meanwhile. A worker has at most six actions in it: it ends its task, takes
another one and ends it, and leaves in three steps. -/
def perform (c : Config) (e : Evaluator) (s : State G) : Action → Option (State G)
  | .takeReport => (s.step c .takeReport).map (letWork c e (6 * c.crew))
  | a => s.step c a

def act (c : Config) (e : Evaluator) : Nat → State G → State G
  | 0, s => s
  | n + 1, s =>
    match (nextAction c e s).bind (perform c e s) with
    | some s => act c e n s
    | none => s

/-- What a run has produced, with the number of candidates that were never assigned. -/
structure Result where
  summary : Summary
  remaining : Nat

def State.result (s : State G) : Option (Except Error Result) :=
  match s.phase with
  | .returned (.ok ()) => some (.ok ⟨s.summary, s.candidates.size⟩)
  | .returned (.error cause) => some (.error cause)
  | _ => none

/-- Tasks for which a run without a limit has the patience. -/
def patience : Nat := 10000

def finalState (c : Config) (e : Evaluator) (initial : MonteCarlo.Search G) (source : G)
    (stopSigns : Nat) (stopHeld : Bool) : State G :=
  let spare := 16 * (c.crew + 2)
  let s := act c e (7 * c.maxTasks.getD patience + spare)
    (start c initial source stopSigns stopHeld)
  act c e (4 * s.queue.length + spare) { s with stopSigns := s.stopSigns + 1, stopWatched := true }

/-- Runs a search and its continuations. The queue has a slot for every worker. -/
def run (c : Config) (e : Evaluator) (initial : MonteCarlo.Search G) (source : G) (stopSigns : Nat)
    (stopHeld : Bool) : Except Interruption Result :=
  match ensureRoom c.crew with
  | .error fault => .error (.fault fault)
  | .ok () =>
    match (finalState c e initial source stopSigns stopHeld).result with
    | some (.ok result) => .ok result
    | some (.error cause) => .error (.error cause)
    | none => .error (.error .workersGone)

end Coordinator
end HexGame
