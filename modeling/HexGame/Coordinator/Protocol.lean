import HexGame.Candidates
import HexGame.MonteCarlo.Search

/-!
# Coordinating workers

A coordinator hands searches to workers and collects what they report; all of them communicate by
channels only. `step` says what one action of one participant does to the common state and when it is
possible, so a run of the whole system, in whatever order the participants act, is a list of actions.

The coordinator first serves its channels: a stop signal, reports and notices. After a report it fills the
queue, one task after the other, while the workers go on. Once it has made up its mind it drops the work
that nobody has started, tells every worker to quit, waits for their acknowledgements and joins them.
-/
namespace HexGame
namespace Coordinator

structure Config where
  workers : Nat
  /-- The iterations that the time for one task is good for. -/
  iterations : Nat
  /-- The visits a node needs to be sampled rather than queued as a candidate. -/
  threshold : Nat
  /-- No new work is assigned after this many tasks. -/
  maxTasks : Option Nat

namespace Config

def crew (c : Config) : Nat := max 1 c.workers

def limitReached (c : Config) (assigned : Nat) : Bool := c.maxTasks.any (· ≤ assigned)

end Config

structure Task (G : Type) where
  id : Nat
  search : MonteCarlo.Search G

/-- What a worker sends back for a task that it has finished. -/
structure Report where
  worker : Nat
  task : Nat
  iterations : Nat
  root : Statistic Float
  nodes : Nat
  samples : List Sample
  candidates : List (SearchTree Float)

/-- How a task ends. A task that ends in a fault takes its worker with it. -/
inductive TaskOutcome where
  | reported (iterations : Nat) (root : Statistic Float) (nodes : Nat) (harvest : MonteCarlo.Harvest)
  | failed (cause : Error)
  | faulted (cause : Fault)

inductive Notice where
  | failed (worker : Nat) (cause : Error)
  | terminated (worker : Nat)

inductive Worker (G : Type) where
  /-- Waiting for a task or for the sign to quit. -/
  | waiting
  | running (task : Task G)
  /-- Out of its loop. -/
  | leaving
  /-- Has said that it is gone, and still holds its channels. -/
  | closing
  /-- Has let go of the channel for reports, and still holds the one for notices. -/
  | parting
  | gone

structure FinishedTask where
  worker : Nat
  task : Nat
  iterations : Nat
  root : Statistic Float
  nodes : Nat

structure Summary where
  assigned : Nat
  finishedCount : Nat
  iterations : Nat
  samples : List Sample
  finished : List FinishedTask
  stopped : Bool

/-- How the coordinator leaves its main loop. -/
abbrev Verdict := Except Error Unit

inductive Phase (G : Type) where
  /-- Waiting for the next message, or about to serve it. -/
  | serving
  /-- About to look for a free slot of the queue and a candidate for it. -/
  | filling
  /-- Holding a task that was made of a candidate, about to queue it. -/
  | queueing (task : Task G)
  /-- Dropping the tasks that nobody has started. -/
  | draining (verdict : Verdict)
  | quitting (verdict : Verdict) (unsent : Nat)
  | awaiting (verdict : Verdict) (acknowledged : Nat)
  | joining (verdict : Verdict)
  | returned (verdict : Verdict)

structure State (G : Type) where
  phase : Phase G
  summary : Summary
  candidates : CandidateList Float G
  /-- The search configuration and the choices for tasks that start from a candidate. -/
  taskConfig : MonteCarlo.Config Float
  taskSource : G
  workers : List (Worker G)
  queue : List (Task G)
  quitSigns : Nat
  reports : List Report
  notices : List Notice
  stopSigns : Nat
  /-- Somebody can still send a stop signal. -/
  stopHeld : Bool
  /-- The coordinator still listens for one. -/
  stopWatched : Bool

inductive Action where
  | sendStop
  | dropStop
  | takeStop
  | noticeStopDropped
  | takeReport
  | noticeReportsClosed
  | takeNotice
  | noticeNoticesClosed
  | prepareTask
  | queueTask
  | drain
  | sendQuit
  | takeAcknowledgement
  | noticeAllGone
  | join
  | takeTask (worker : Nat)
  | takeQuit (worker : Nat)
  | finishTask (worker : Nat) (outcome : TaskOutcome)
  | announceEnd (worker : Nat)
  | dropReports (worker : Nat)
  | dropNotices (worker : Nat)

/-- The state right after the first task has been queued. -/
def start {G : Type} (c : Config) (initial : MonteCarlo.Search G) (source : G) (stopSigns : Nat)
    (stopHeld : Bool) : State G where
  phase := .serving
  summary := ⟨1, 0, 0, [], [], false⟩
  candidates := .empty initial.root.value.board.size source
  taskConfig := initial.config
  taskSource := source
  workers := List.replicate c.crew .waiting
  queue := [⟨0, initial⟩]
  quitSigns := 0
  reports := []
  notices := []
  stopSigns := stopSigns
  stopHeld := stopHeld
  stopWatched := true

namespace State

variable {G : Type}

def allGone (s : State G) : Bool := s.workers.all fun
  | .gone => true
  | _ => false

/-- Nobody can send a report any more. -/
def reportsClosed (s : State G) : Bool := s.workers.all fun
  | .parting => true
  | .gone => true
  | _ => false

def setWorker (s : State G) (w : Nat) (x : Worker G) : State G :=
  { s with workers := s.workers.set w x }

/-- Adds a report to the summary and its candidates to the list. -/
def absorb (s : State G) (r : Report) : State G :=
  { s with
    summary :=
      { s.summary with
        finishedCount := s.summary.finishedCount + 1
        iterations := s.summary.iterations + r.iterations
        samples := s.summary.samples ++ r.samples
        finished := s.summary.finished ++ [⟨r.worker, r.task, r.iterations, r.root, r.nodes⟩] }
    candidates := s.candidates.addAll r.candidates }

/-- The end of a turn of the main loop. It is left when all assigned work is done and no more is to be
assigned. -/
def settle (c : Config) (s : State G) : State G :=
  let allDone := s.summary.assigned = s.summary.finishedCount
  let noMore := s.candidates.isEmpty || s.summary.stopped || c.limitReached s.summary.assigned
  { s with phase := if allDone && noMore then .draining (.ok ()) else .serving }

def fail (s : State G) (cause : Error) : State G := { s with phase := .draining (.error cause) }

/-- A message is taken. Any channel that is ready may be served. -/
def serve (c : Config) (s : State G) : Action → Option (State G)
  | .takeStop =>
    if s.stopWatched && 0 < s.stopSigns then
      some <| settle c
        { s with stopSigns := s.stopSigns - 1, summary := { s.summary with stopped := true } }
    else none
  | .noticeStopDropped =>
    if s.stopWatched && s.stopSigns = 0 && !s.stopHeld then
      some (settle c { s with stopWatched := false })
    else none
  | .takeReport =>
    match s.reports with
    | [] => none
    | r :: reports =>
      let s := { s with reports }.absorb r
      some (if s.summary.stopped then s.settle c else { s with phase := .filling })
  | .noticeReportsClosed =>
    if s.reports.isEmpty && s.reportsClosed then some (s.fail .workersGone) else none
  | .takeNotice =>
    match s.notices with
    | [] => none
    | .failed worker cause :: notices =>
      some ({ s with notices }.fail (.workerFailed worker cause.message))
    | .terminated worker :: notices =>
      some ({ s with notices }.fail (.workerFailed worker "terminated early"))
  | .noticeNoticesClosed =>
    if s.notices.isEmpty && s.allGone then some (s.fail .workersGone) else none
  | _ => none

/-- Candidates are made into tasks as long as the queue has slots. A task that finds no slot is lost. Where
the list of candidates meets a fault the coordinator does not go on. -/
def fill [ChoiceSource G] (c : Config) (s : State G) : Action → Option (State G)
  | .prepareTask =>
    match s.phase with
    | .filling =>
      if s.queue.length < c.crew && !c.limitReached s.summary.assigned then
        match s.candidates.serve with
        | .error _ => none
        | .ok none => some (s.settle c)
        | .ok (some (t, candidates)) =>
          let task : Task G := ⟨s.summary.assigned, .ofTree t s.taskConfig s.taskSource⟩
          some { s with candidates, phase := .queueing task }
      else some (s.settle c)
    | _ => none
  | .queueTask =>
    match s.phase with
    | .queueing task =>
      some <|
        if s.queue.length < c.crew then
          { s with
            phase := .filling
            queue := s.queue ++ [task]
            summary := { s.summary with assigned := s.summary.assigned + 1 } }
        else s.settle c
    | _ => none
  | _ => none

def shutDown (c : Config) (s : State G) : Action → Option (State G)
  | .drain =>
    match s.phase, s.queue with
    | .draining _, _ :: queue => some { s with queue }
    | .draining verdict, [] => some { s with phase := .quitting verdict c.crew }
    | _, _ => none
  | .sendQuit =>
    match s.phase with
    | .quitting verdict (unsent + 1) =>
      let quitSigns := if s.quitSigns < c.crew then s.quitSigns + 1 else s.quitSigns
      some { s with phase := .quitting verdict unsent, quitSigns }
    | .quitting verdict 0 => some { s with phase := .awaiting verdict 0 }
    | _ => none
  | .takeAcknowledgement =>
    match s.phase, s.notices with
    | .awaiting verdict n, .terminated _ :: notices =>
      let phase := if n + 1 < c.crew then .awaiting verdict (n + 1) else .joining verdict
      some { s with notices, phase }
    | .awaiting _ _, .failed _ _ :: notices => some { s with notices }
    | _, _ => none
  | .noticeAllGone =>
    match s.phase, s.notices with
    | .awaiting verdict _, [] => if s.allGone then some { s with phase := .joining verdict } else none
    | _, _ => none
  | .join =>
    match s.phase with
    | .joining verdict => if s.allGone then some { s with phase := .returned verdict } else none
    | _ => none
  | _ => none

/-- What the end of a task sends to the coordinator. -/
def conclude (s : State G) (w : Nat) (task : Task G) : TaskOutcome → State G
  | .reported iterations root nodes harvest =>
    { s.setWorker w .waiting with
      reports := s.reports ++
        [⟨w, task.id, iterations, root, nodes, harvest.samples, harvest.candidates⟩] }
  | .failed cause =>
    { s.setWorker w .waiting with notices := s.notices ++ [.failed w cause] }
  | .faulted cause =>
    { s.setWorker w .leaving with
      notices := s.notices ++ [.failed w (.faulted cause.message)] }

def work (s : State G) : Action → Option (State G)
  | .takeTask w =>
    match s.workers[w]?, s.queue with
    | some .waiting, task :: queue => some { s.setWorker w (.running task) with queue }
    | _, _ => none
  | .takeQuit w =>
    match s.workers[w]?, s.quitSigns with
    | some .waiting, quitSigns + 1 => some { s.setWorker w .leaving with quitSigns }
    | _, _ => none
  | .finishTask w outcome =>
    match s.workers[w]? with
    | some (.running task) => some (s.conclude w task outcome)
    | _ => none
  | .announceEnd w =>
    match s.workers[w]? with
    | some .leaving =>
      some { s.setWorker w .closing with notices := s.notices ++ [.terminated w] }
    | _ => none
  | .dropReports w =>
    match s.workers[w]? with
    | some .closing => some (s.setWorker w .parting)
    | _ => none
  | .dropNotices w =>
    match s.workers[w]? with
    | some .parting => some (s.setWorker w .gone)
    | _ => none
  | _ => none

def step [ChoiceSource G] (c : Config) (s : State G) (a : Action) : Option (State G) :=
  match a with
  | .sendStop => if s.stopHeld then some { s with stopSigns := s.stopSigns + 1 } else none
  | .dropStop => if s.stopHeld then some { s with stopHeld := false } else none
  | .takeTask _ | .takeQuit _ | .finishTask _ _ | .announceEnd _ | .dropReports _ | .dropNotices _ =>
    s.work a
  | .prepareTask | .queueTask => s.fill c a
  | .drain | .sendQuit | .takeAcknowledgement | .noticeAllGone | .join => s.shutDown c a
  | .takeStop | .noticeStopDropped | .takeReport | .noticeReportsClosed | .takeNotice
  | .noticeNoticesClosed =>
    match s.phase with
    | .serving => s.serve c a
    | _ => none

def steps [ChoiceSource G] (c : Config) (s : State G) (as : List Action) : Option (State G) :=
  as.foldlM (step c) s

end State
end Coordinator
end HexGame
