import HexGame.Proofs.Coordinator.Work

/-!
# How workers leave and what the run says

Each worker says once that it is gone, after all its failures, and the coordinator waits for all of them. A
run in which a task has failed never returns well. It names a worker that failed and the error that this
worker sent, unless all workers are gone: a channel without senders is ready as well as one with a message,
so the coordinator may find the channel for reports closed before it takes the notice of the failure
(`Reached.failure_unnoticed`).
-/
namespace HexGame
namespace Coordinator

variable {G : Type} {c : Config} {s s' : State G} {l : Ledger G} {a : Action} {verdict : Verdict}

namespace Invariant

theorem first_ne_terminated (h : Invariant c s l) (hu : Undecided s l) {w : Nat} {notices : List Notice} :
    s.notices ≠ .terminated w :: notices := by
  rw [hu.notices]
  exact h.staff.first_ne_terminated hu.quitters

theorem verdict_of_failure (h : Invariant c s l) (hphase : s.phase = .returned verdict)
    (hfailures : l.failures ≠ []) :
    (∃ w cause, verdict = .error (.workerFailed w cause.message) ∧ .failed w cause ∈ l.notices ∧
      ∃ f ∈ l.failures, f.worker = w) ∨
    verdict = .error .workersGone ∧ ∀ w < c.crew, ∃ f ∈ l.failures, f.worker = w ∧ f.panicked = true := by
  obtain ⟨hjustified, -⟩ := h.returned hphase
  cases hjustified with
  | done hfinished _ =>
    have hcount := h.accounts.length_places
    have := List.length_pos_iff.mpr hfailures
    omega
  | gone hall => exact .inr ⟨rfl, hall⟩
  | @failed w cause hsent =>
    have hw : w ∈ l.failures.map Failure.worker := by
      rw [← h.staff.failures]
      exact List.mem_filterMap.mpr ⟨_, hsent, rfl⟩
    obtain ⟨f, hf, hfw⟩ := List.mem_map.mp hw
    exact .inl ⟨w, cause, rfl, hsent, f, hf, hfw⟩

end Invariant

/-! ## After the return -/

theorem not_work_of_allGone (hgone : s.allGone = true) : s.work a ≠ some s' := by
  have hworker {w : Nat} {x : Worker G} (hw : s.workers[w]? = some x) : x = .gone :=
    allGone_iff.mp hgone x (List.mem_of_getElem? hw)
  intro h
  unfold State.work at h
  split at h
  · split at h
    · cases hworker ‹_›
    · cases h
  · split at h
    · cases hworker ‹_›
    · cases h
  · split at h
    · cases hworker ‹_›
    · cases h
  · split at h
    · cases hworker ‹_›
    · cases h
  · split at h
    · cases hworker ‹_›
    · cases h
  · split at h
    · cases hworker ‹_›
    · cases h
  · cases h

variable [ChoiceSource G] {initial : MonteCarlo.Search G} {source : G}

/-- After the return only the stop channel can change. -/
theorem step_of_returned (hphase : s.phase = .returned verdict) (hgone : s.allGone = true)
    (h : s.step c a = some s') : s'.phase = .returned verdict ∧ s'.workers = s.workers := by
  unfold State.step at h
  split at h
  · split at h <;> cases h
    exact ⟨hphase, rfl⟩
  · split at h <;> cases h
    exact ⟨hphase, rfl⟩
  all_goals first
    | exact absurd h (not_work_of_allGone hgone)
    | simp [State.fill, hphase] at h
    | simp [State.shutDown, hphase] at h

theorem steps_of_returned {as : List Action} (hphase : s.phase = .returned verdict) (hgone : s.allGone = true)
    (h : s.steps c as = some s') : s'.workers = s.workers := by
  induction as generalizing s with
  | nil =>
    cases h
    rfl
  | cons a as ih =>
    obtain ⟨s₁, hstep, h⟩ := Option.bind_eq_some_iff.mp h
    obtain ⟨hphase₁, hworkers⟩ := step_of_returned hphase hgone hstep
    have hgone₁ : s₁.allGone = true := by
      rw [State.allGone, hworkers]
      exact hgone
    exact (ih hphase₁ hgone₁ h).trans hworkers

/-- A worker sends its farewell once, after all its failures, and the main loop never meets a farewell
first. When the run returns, all workers are gone and do nothing any more, and the signs to quit were
taken by different workers. If a task has failed, the run names a worker that failed, with its error, or all
workers have gone with their tasks and it says that they are gone. -/
theorem Reached.workers_leave (h : Reached c initial source s l) :
    (∀ (w : Nat) x, s.workers[w]? = some x → ∃ failures, (∀ n ∈ failures, n.failed? = some w) ∧
      l.notices.filter (·.worker = w) = failures ++ x.farewell w) ∧
    (s.phase.InLoop → ∀ w notices, s.notices ≠ .terminated w :: notices) ∧
    ∀ verdict, s.phase = .returned verdict →
      (l.failures ≠ [] →
        (∃ w cause, verdict = .error (.workerFailed w cause.message) ∧ .failed w cause ∈ l.notices ∧
          ∃ f ∈ l.failures, f.worker = w) ∨
        verdict = .error .workersGone ∧ ∀ w < c.crew, ∃ f ∈ l.failures, f.worker = w ∧ f.panicked = true) ∧
      (∀ w < c.crew, s.workers[w]? = some .gone) ∧
      (∀ as s', s.steps c as = some s' → s'.workers = s.workers) ∧
      l.quitters.Nodup ∧ l.quitters.length + s.quitSigns = c.crew := by
  have hinv := h.invariant
  refine ⟨hinv.staff.sent, fun hloop w notices => hinv.first_ne_terminated (hinv.undecided hloop),
    fun verdict hphase => ?_⟩
  obtain ⟨-, hquits, hgone⟩ := hinv.returned hphase
  refine ⟨hinv.verdict_of_failure hphase, fun w hw => ?_,
    fun as s' hsteps => steps_of_returned hphase hgone hsteps, hinv.staff.quitters_nodup, hquits⟩
  rw [← hinv.staff.length_workers] at hw
  rw [List.getElem?_eq_getElem hw, allGone_iff.mp hgone _ (List.getElem_mem hw)]

/-- The worker goes with its task, whose board has no move left. -/
def failTask : List Action :=
  [.takeTask 0, .finishTask 0 (.faulted (.deadEnd smallSearch.root.value.board)), .announceEnd 0]

/-- The run names the only worker, which has failed. -/
theorem Reached.workers_leave_oneWorker : ∃ s l, Reached oneWorker smallSearch (.ofSeed 0) s l ∧
    l.failures ≠ [] ∧
    s.phase = .returned (.error (.workerFailed 0
      (Error.faulted (Fault.deadEnd smallSearch.root.value.board).message).message)) ∧
    (∀ w < oneWorker.crew, s.workers[w]? = some .gone) ∧
    ∃ failures, (∀ n ∈ failures, n.failed? = some 0) ∧
      l.notices.filter (·.worker = 0) = failures ++ [.terminated 0] := by
  have hreached : Reached oneWorker smallSearch (.ofSeed 0) _ _ :=
    Reached.of_steps (failTask ++ [.dropReports 0, .takeNotice, .dropNotices 0, .drain, .sendQuit, .sendQuit,
      .takeAcknowledgement, .join]) rfl
  obtain ⟨hsent, -, hreturned⟩ := hreached.workers_leave
  obtain ⟨-, hgone, -⟩ := hreturned _ rfl
  exact ⟨_, _, hreached, nofun, rfl, hgone, hsent 0 _ rfl⟩

/-- The channel for reports is found closed while the notice of the failure waits. -/
theorem Reached.failure_unnoticed : ∃ s l, Reached oneWorker smallSearch (.ofSeed 0) s l ∧
    (∃ f ∈ l.failures, f.worker = 0 ∧ f.panicked = true) ∧ s.phase = .returned (.error .workersGone) := by
  have hreached : Reached oneWorker smallSearch (.ofSeed 0) _ _ :=
    Reached.of_steps (failTask ++ [.dropReports 0, .noticeReportsClosed, .dropNotices 0, .drain, .sendQuit,
      .sendQuit, .takeAcknowledgement, .takeAcknowledgement, .join]) rfl
  exact ⟨_, _, hreached, ⟨_, List.mem_cons_self, rfl, rfl⟩, rfl⟩

end Coordinator
end HexGame
