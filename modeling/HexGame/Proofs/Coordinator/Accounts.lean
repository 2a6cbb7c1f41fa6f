import HexGame.Proofs.Candidates
import HexGame.Proofs.Coordinator.Ledger

/-!
# The accounts of tasks and candidates

Every task that was given out is in exactly one place: finished, in the queue, with a worker, in a report
that was not taken, failed, or dropped. Every candidate of a report that was taken waits in the list or has
become a task. `Accounts` says so, and for each action that moves a task or a candidate there is one lemma
that the accounts stay right.
-/
namespace HexGame
namespace Coordinator

variable {G : Type}

/-- The accounts in a state. `hand` are the tasks that the coordinator holds, which have no place in the
queue yet. -/
structure Accounts (c : Config) (hand : List (Task G)) (s : State G) (l : Ledger G) : Prop where
  issued_ids : l.issued.map Task.id = List.range s.summary.assigned
  issued_ne_nil : l.issued ≠ []
  places : (s.places l).Perm (List.range s.summary.assigned)
  slots : s.queue.length ≤ c.crew
  lost : l.lost = []
  finished : s.summary.finished = l.absorbed.map Report.finished
  finishedCount : s.summary.finishedCount = l.absorbed.length
  samples : s.summary.samples = l.absorbed.flatMap Report.samples
  buckets_ne_nil : s.candidates.buckets ≠ []
  candidates : (l.absorbed.flatMap Report.candidates).Perm
    (l.issued.tail.map Task.root ++ hand.map Task.root ++ s.candidates.nodes)

namespace Accounts

variable {c : Config} {hand : List (Task G)} {s : State G} {l : Ledger G} {w : Nat} {task : Task G}

theorem start (c : Config) (initial : MonteCarlo.Search G) (source : G) (stopSigns : Nat) (stopHeld : Bool) :
    Accounts c [] (Coordinator.start c initial source stopSigns stopHeld) (.start initial) where
  issued_ids := rfl
  issued_ne_nil := nofun
  places := by
    have hrunning : (Coordinator.start c initial source stopSigns stopHeld).running = [] := by
      simp [State.running, Coordinator.start, Worker.task?]
    rw [State.places, hrunning]
    exact .refl _
  slots := Nat.le_max_left 1 c.workers
  lost := rfl
  finished := rfl
  finishedCount := rfl
  samples := rfl
  buckets_ne_nil := by simp [Coordinator.start, CandidateList.empty]
  candidates := by simp [Coordinator.start, CandidateList.empty, CandidateList.nodes, Ledger.start]

/-- All places together hold as many tasks as were given out. -/
theorem length_places (h : Accounts c hand s l) : s.summary.assigned = s.summary.finishedCount +
    s.queue.length + s.running.length + s.reports.length + l.failures.length + l.dropped.length := by
  have hlength := h.places.length_eq
  have hfinished := congrArg List.length h.finished
  have hcount := h.finishedCount
  simp only [State.places, List.length_append, List.length_map, List.length_range] at hlength hfinished
  omega

theorem length_candidates (h : Accounts c hand s l) : (l.absorbed.flatMap Report.candidates).length =
    s.summary.assigned - 1 + hand.length + s.candidates.size := by
  have hissued := congrArg List.length h.issued_ids
  rw [List.length_map, List.length_range] at hissued
  rw [h.candidates.length_eq, List.length_append, List.length_append, List.length_map, List.length_map,
    List.length_tail, hissued, CandidateList.size]

/-! ## The coordinator -/

theorem absorb {r : Report} {reports : List Report} (h : Accounts c [] s l)
    (hreports : s.reports = r :: reports) :
    Accounts c [] ({ s with reports }.absorb r) { l with absorbed := l.absorbed ++ [r] } :=
  { h with
    places := by
      refine .trans (List.perm_iff_count.mpr fun n => ?_) h.places
      simp only [State.places, State.absorb, State.running, hreports, List.map_append, List.map_cons,
        List.count_append, List.count_cons, List.map_nil, List.count_nil]
      omega
    finished := by
      show s.summary.finished ++ [r.finished] = _
      rw [h.finished, List.map_append, List.map_singleton]
    finishedCount := by
      show s.summary.finishedCount + 1 = _
      rw [h.finishedCount, List.length_append, List.length_singleton]
    samples := by
      show s.summary.samples ++ r.samples = _
      rw [h.samples, List.flatMap_append, List.flatMap_singleton]
    buckets_ne_nil := CandidateList.buckets_addAll_ne_nil h.buckets_ne_nil
    candidates := by
      rw [List.flatMap_append, List.flatMap_singleton]
      have hnodes : (r.candidates ++ s.candidates.nodes).Perm (s.candidates.addAll r.candidates).nodes :=
        (CandidateList.perm_nodes_addAll h.buckets_ne_nil).symm
      have hadded := (h.candidates.append_right r.candidates).trans (.of_eq (List.append_assoc ..))
      exact hadded.trans ((List.perm_append_comm.trans hnodes).append_left _) }

theorem prepare {t : SearchTree Float} {candidates : CandidateList Float G} (h : Accounts c [] s l)
    (hperm : s.candidates.nodes.Perm (t :: candidates.nodes)) (hbuckets : candidates.buckets ≠ [])
    (htask : task.root = t) {phase : Phase G} : Accounts c [task] { s with candidates, phase } l :=
  { h with
    buckets_ne_nil := hbuckets
    candidates := by
      refine h.candidates.trans ?_
      rw [List.map_nil, List.append_nil, List.map_singleton, htask, List.append_assoc]
      exact hperm.append_left _ }

theorem queue (h : Accounts c [task] s l) (hid : task.id = s.summary.assigned)
    (hslot : s.queue.length < c.crew) {phase : Phase G} :
    Accounts c []
      { s with
        phase
        queue := s.queue ++ [task]
        summary := { s.summary with assigned := s.summary.assigned + 1 } }
      { l with issued := l.issued ++ [task] } :=
  { h with
    issued_ids := by rw [List.map_append, h.issued_ids, List.map_singleton, hid, List.range_succ]
    issued_ne_nil := by simp
    places := by
      rw [List.range_succ]
      refine .trans (List.perm_iff_count.mpr fun n => ?_) (h.places.append_right _)
      simp only [State.places, State.running, List.map_append, List.map_cons, List.count_append,
        List.count_cons, List.map_nil, List.count_nil, hid]
      omega
    slots := by
      rw [List.length_append, List.length_singleton]
      exact hslot
    candidates := by
      refine h.candidates.trans (.of_eq ?_)
      rw [List.tail_append_of_ne_nil h.issued_ne_nil, List.map_append, List.map_nil, List.append_nil] }

theorem drop {queue : List (Task G)} (h : Accounts c hand s l) (hqueue : s.queue = task :: queue) :
    Accounts c hand { s with queue } { l with dropped := l.dropped ++ [task] } :=
  { h with
    places := by
      refine .trans (List.perm_iff_count.mpr fun n => ?_) h.places
      simp only [State.places, State.running, hqueue, List.map_append, List.map_cons, List.count_append,
        List.count_cons, List.map_nil, List.count_nil]
      omega
    slots := by
      have hslots := h.slots
      rw [hqueue, List.length_cons] at hslots
      exact Nat.le_of_succ_le hslots }

/-! ## Workers -/

variable {x y : Worker G}

/-- A worker's task goes and comes with the worker's state. -/
theorem perm_running (y : Worker G) (hw : s.workers[w]? = some x) :
    ((s.setWorker w y).running ++ x.task?.toList).Perm (s.running ++ y.task?.toList) := by
  obtain ⟨hlt, rfl⟩ := List.getElem?_eq_some_iff.mp hw
  obtain ⟨before, after, hworkers, -, hset⟩ := @List.exists_of_set _ w y s.workers hlt
  have hrunning (z : Worker G) : (before ++ z :: after).filterMap Worker.task? =
      before.filterMap Worker.task? ++ (z.task?.toList ++ after.filterMap Worker.task?) := by
    rw [List.filterMap_append, List.filterMap_cons]
    cases z.task? <;> rfl
  have hbefore : s.running = _ := (congrArg (List.filterMap Worker.task?) hworkers).trans (hrunning _)
  have hafter : (s.setWorker w y).running = _ := (congrArg (List.filterMap Worker.task?) hset).trans (hrunning y)
  rw [hbefore, hafter]
  simp only [List.append_assoc]
  refine List.Perm.append_left _ (List.perm_append_comm.trans ?_)
  rw [← List.append_assoc _ _ y.task?.toList]
  exact List.perm_append_comm.append_right _

theorem count_running (n : Nat) (y : Worker G) (hw : s.workers[w]? = some x) :
    ((s.setWorker w y).running.map Task.id).count n + (x.task?.toList.map Task.id).count n =
      (s.running.map Task.id).count n + (y.task?.toList.map Task.id).count n := by
  have hcount := ((perm_running y hw).map Task.id).count_eq n
  rwa [List.map_append, List.map_append, List.count_append, List.count_append] at hcount

theorem idle (h : Accounts c hand s l) (hw : s.workers[w]? = some x) (hx : x.task? = none)
    (hy : y.task? = none) : Accounts c hand (s.setWorker w y) l :=
  { h with
    places := by
      refine .trans (List.perm_iff_count.mpr fun n => ?_) h.places
      have hrunning := count_running n y hw
      rw [hx, hy] at hrunning
      simp only [State.places, List.count_append, Nat.add_right_cancel hrunning]
      rfl }

theorem take {queue : List (Task G)} (h : Accounts c hand s l) (hw : s.workers[w]? = some .waiting)
    (hqueue : s.queue = task :: queue) : Accounts c hand { s.setWorker w (.running task) with queue } l :=
  { h with
    places := by
      refine .trans (List.perm_iff_count.mpr fun n => ?_) h.places
      have hrunning := count_running n (.running task) hw
      simp only [State.places, State.running, State.setWorker, Worker.task?, Option.toList, hqueue,
        List.map_cons, List.map_nil, List.count_append, List.count_cons, List.count_nil] at hrunning ⊢
      omega
    slots := by
      have hslots := h.slots
      rw [hqueue, List.length_cons] at hslots
      exact Nat.le_of_succ_le hslots }

theorem conclude (h : Accounts c hand s l) (hw : s.workers[w]? = some (.running task)) (outcome : TaskOutcome) :
    Accounts c hand (s.conclude w task outcome) (l.conclude w task outcome) := by
  have hplaces : ((s.conclude w task outcome).places (l.conclude w task outcome)).Perm (s.places l) := by
    refine List.perm_iff_count.mpr fun n => ?_
    have hwaiting := count_running n .waiting hw
    have hleaving := count_running n .leaving hw
    cases outcome <;>
      simp only [State.places, State.conclude, Ledger.conclude, State.running, State.setWorker, Worker.task?,
        Option.toList, List.map_append, List.map_cons, List.map_nil, List.count_append, List.count_cons,
        List.count_nil] at hwaiting hleaving ⊢ <;>
      omega
  cases outcome <;> exact { h with places := hplaces.trans h.places }

end Accounts
end Coordinator
end HexGame
