import HexGame.Coordinator.Run
import HexGame.Proofs.Board.Place

/-!
# What has happened in a run

A state holds what is still to be dealt with. The ledger keeps what has been: the tasks that were given out
and what became of them, the notices that were sent and the workers that were told to quit. `Reached`
says which states there are, with their ledgers, in whatever order the participants act and however the
tasks end.
-/
namespace HexGame
namespace Coordinator

variable {G : Type}

/-- The finished task that a report adds to the summary. -/
def Report.finished (r : Report) : FinishedTask := ⟨r.worker, r.task, r.iterations, r.root, r.nodes⟩

def Task.root (t : Task G) : SearchTree Float := t.search.root

def Notice.worker : Notice → Nat
  | .failed w _ => w
  | .terminated w => w

/-- The worker that a notice of a failure names. -/
def Notice.failed? : Notice → Option Nat
  | .failed w _ => some w
  | .terminated _ => none

namespace Worker

def task? : Worker G → Option (Task G)
  | .running task => some task
  | _ => none

/-- Out of its loop: it takes no task and no sign to quit any more. -/
def HasLeft : Worker G → Prop
  | .leaving => True
  | .closing => True
  | .parting => True
  | .gone => True
  | _ => False

/-- The notices with which worker `w` has said that it is gone. -/
def farewell (w : Nat) : Worker G → List Notice
  | .closing => [.terminated w]
  | .parting => [.terminated w]
  | .gone => [.terminated w]
  | _ => []

end Worker

namespace Phase

/-- The coordinator is in its main loop. -/
def InLoop : Phase G → Prop
  | .serving => True
  | .filling => True
  | .queueing _ => True
  | _ => False

/-- The task that has been made of a candidate and is not yet queued. -/
def hand : Phase G → List (Task G)
  | .queueing task => [task]
  | _ => []

end Phase

/-- The tasks that workers are working on. -/
def State.running (s : State G) : List (Task G) := s.workers.filterMap Worker.task?

/-- A task that ended without a report. -/
structure Failure where
  worker : Nat
  task : Nat
  /-- The worker went with the task. -/
  panicked : Bool

structure Ledger (G : Type) where
  /-- The tasks that were put into the queue. -/
  issued : List (Task G)
  /-- The tasks that found no slot in the queue. -/
  lost : List (Task G)
  /-- The tasks that were taken out of the queue for nobody. -/
  dropped : List (Task G)
  /-- The reports that the coordinator took. -/
  absorbed : List Report
  failures : List Failure
  /-- All notices, also those that were taken. -/
  notices : List Notice
  /-- The workers that took a sign to quit. -/
  quitters : List Nat

/-- The numbers of all tasks, by where they are. -/
def State.places (s : State G) (l : Ledger G) : List Nat :=
  s.summary.finished.map FinishedTask.task ++ s.queue.map Task.id ++ s.running.map Task.id ++
    s.reports.map Report.task ++ l.failures.map Failure.task ++ l.dropped.map Task.id

namespace Ledger

/-- The first task has been queued. -/
def start (initial : MonteCarlo.Search G) : Ledger G := ⟨[⟨0, initial⟩], [], [], [], [], [], []⟩

/-- What the end of a task adds. -/
def conclude (l : Ledger G) (w : Nat) (task : Task G) : TaskOutcome → Ledger G
  | .reported .. => l
  | .failed cause =>
    { l with failures := l.failures ++ [⟨w, task.id, false⟩], notices := l.notices ++ [.failed w cause] }
  | .faulted cause =>
    { l with
      failures := l.failures ++ [⟨w, task.id, true⟩]
      notices := l.notices ++ [.failed w (.faulted cause.message)] }

/-- What an action adds that is possible in state `s`. -/
def note (c : Config) (s : State G) (l : Ledger G) : Action → Ledger G
  | .queueTask =>
    match s.phase with
    | .queueing task =>
      if s.queue.length < c.crew then { l with issued := l.issued ++ [task] }
      else { l with lost := l.lost ++ [task] }
    | _ => l
  | .takeReport => { l with absorbed := l.absorbed ++ s.reports.head?.toList }
  | .drain => { l with dropped := l.dropped ++ s.queue.head?.toList }
  | .finishTask w outcome =>
    match s.workers[w]? with
    | some (.running task) => l.conclude w task outcome
    | _ => l
  | .takeQuit w => { l with quitters := l.quitters ++ [w] }
  | .announceEnd w => { l with notices := l.notices ++ [.terminated w] }
  | _ => l

end Ledger

variable [ChoiceSource G]

/-- The states that the system comes to from the start, each with its ledger. -/
inductive Reached (c : Config) (initial : MonteCarlo.Search G) (source : G) : State G → Ledger G → Prop
  | start (stopSigns : Nat) (stopHeld : Bool) :
    Reached c initial source (start c initial source stopSigns stopHeld) (.start initial)
  | step {s s' : State G} {l : Ledger G} {a : Action} (h : Reached c initial source s l)
    (hstep : s.step c a = some s') : Reached c initial source s' (l.note c s a)

variable {c : Config} {initial : MonteCarlo.Search G} {source : G} {s s' : State G} {l : Ledger G}

/-- The ledger after a list of actions. -/
def Ledger.noteAll (c : Config) (s : State G) (l : Ledger G) : List Action → Ledger G
  | [] => l
  | a :: as =>
    match s.step c a with
    | some s' => noteAll c s' (l.note c s a) as
    | none => l

theorem Reached.steps {as : List Action} (h : Reached c initial source s l)
    (hsteps : s.steps c as = some s') : Reached c initial source s' (l.noteAll c s as) := by
  induction as generalizing s l with
  | nil =>
    cases hsteps
    exact h
  | cons a as ih =>
    obtain ⟨s₁, hstep, hsteps⟩ := Option.bind_eq_some_iff.mp hsteps
    rw [Ledger.noteAll, hstep]
    exact ih (h.step hstep) hsteps

/-! ## One worker -/

def oneWorker : Config := ⟨1, 0, 0, none⟩

/-- A search on four cells. -/
def smallSearch : MonteCarlo.Search Generator :=
  .start (.blank 2 .red two_le_maxSize) .default (.ofSeed 0)

/-- The worker takes a task and reports it. -/
def reportTask (candidates : List (SearchTree Float)) : List Action :=
  [.takeTask 0, .finishTask 0 (.reported 1 smallSearch.root.value 1 ⟨[], candidates⟩), .takeReport]

/-- The coordinator tells the worker to quit and waits for it. -/
def quitAndJoin : List Action :=
  [.drain, .sendQuit, .sendQuit, .takeQuit 0, .announceEnd 0, .takeAcknowledgement, .dropReports 0,
    .dropNotices 0, .join]

theorem Reached.of_steps (as : List Action)
    (hsteps : (Coordinator.start c initial source 0 false).steps c as = some s) :
    Reached c initial source s
      ((Ledger.start initial).noteAll c (Coordinator.start c initial source 0 false) as) :=
  (Reached.start 0 false).steps hsteps

end Coordinator
end HexGame
