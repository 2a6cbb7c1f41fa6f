import HexGame.Proofs.Coordinator.Reached

/-!
# Work is neither lost nor repeated, and stops for a reason

What the invariant says about a run as a whole: where the tasks and the candidates are while the main loop
goes on (`Reached.conserves_work`), and when it goes on and when it stops (`Reached.stops_for_a_reason`).
-/
namespace HexGame
namespace Coordinator

variable {G : Type} {c : Config} {s s' : State G} {l : Ledger G}

/-- There is something to do: to hear what became of a task, to end a task or to take one. -/
def State.Astir (s : State G) : Prop :=
  s.reports ≠ [] ∨ s.notices ≠ [] ∨ (∃ (w : Nat) (task : Task G), s.workers[w]? = some (.running task)) ∨
    s.queue ≠ [] ∧ ∃ w : Nat, s.workers[w]? = some .waiting

namespace Invariant

theorem undecided (h : Invariant c s l) (hloop : s.phase.InLoop) : Undecided s l := by
  have hfits := h.fits
  cases hphase : s.phase with
  | serving | filling | queueing =>
    rw [hphase] at hfits
    exact hfits.1
  | draining | quitting | awaiting | joining | returned =>
    rw [hphase] at hloop
    exact hloop.elim

/-- A run that has returned well has finished all that was assigned, and had a reason to stop. -/
theorem of_returned (h : Invariant c s l) (hphase : s.phase = .returned (.ok ())) :
    s.summary.finishedCount = s.summary.assigned ∧
      (s.candidates.nodes = [] ∨ s.summary.stopped = true ∨ c.limitReached s.summary.assigned = true) := by
  obtain ⟨hjustified, -⟩ := h.returned hphase
  cases hjustified with
  | done hfinished hreason => exact ⟨hfinished, hreason⟩

theorem places_eq_finished (h : Invariant c s l) (hdone : s.summary.finishedCount = s.summary.assigned) :
    s.places l = s.summary.finished.map FinishedTask.task := by
  have hcount := h.accounts.length_places
  have hqueue : s.queue = [] := List.length_eq_zero_iff.mp (by omega)
  have hrunning : s.running = [] := List.length_eq_zero_iff.mp (by omega)
  have hreports : s.reports = [] := List.length_eq_zero_iff.mp (by omega)
  have hfailures : l.failures = [] := List.length_eq_zero_iff.mp (by omega)
  have hdropped : l.dropped = [] := List.length_eq_zero_iff.mp (by omega)
  simp [State.places, hqueue, hrunning, hreports, hfailures, hdropped]

theorem not_idle (h : Invariant c s l) (hu : Undecided s l)
    (hlt : s.summary.finishedCount < s.summary.assigned) : s.Astir := by
  have hcount := h.accounts.length_places
  have hnotices (hfailures : l.failures ≠ []) : s.notices ≠ [] := by
    intro hnone
    have hreported := h.staff.failures
    rw [← hu.notices, hnone] at hreported
    exact hfailures (List.map_eq_nil_iff.mp hreported.symm)
  by_cases hreports : s.reports = []
  case neg => exact .inl hreports
  by_cases hfailures : l.failures = []
  case neg => exact .inr (.inl (hnotices hfailures))
  refine .inr (.inr ?_)
  by_cases hrunning : s.running = []
  case neg =>
    obtain ⟨task, htask⟩ := List.exists_mem_of_ne_nil _ hrunning
    obtain ⟨x, hx, hxtask⟩ := List.mem_filterMap.mp htask
    obtain ⟨w, hw⟩ := List.getElem?_of_mem hx
    cases x with
    | running t => exact .inl ⟨w, t, hw⟩
    | waiting | leaving | closing | parting | gone => cases hxtask
  refine .inr ⟨?_, 0, ?_⟩
  · intro hqueue
    simp only [hu.dropped, hreports, hfailures, hrunning, hqueue, List.length_nil] at hcount
    omega
  · have hlength : 0 < s.workers.length := by
      rw [h.staff.length_workers]
      exact Nat.le_max_left 1 c.workers
    have hw := List.getElem?_eq_getElem hlength
    have hstays : ¬ s.workers[0].HasLeft := by
      intro hleft
      obtain ⟨f, hf, -⟩ := h.staff.panicked hu.quitters hw hleft
      rw [hfailures] at hf
      cases hf
    rw [hw]
    cases hx : s.workers[0] with
    | waiting => rfl
    | running task =>
      have hmem : task ∈ s.running :=
        List.mem_filterMap.mpr ⟨_, List.getElem_mem hlength, by rw [hx, Worker.task?]⟩
      rw [hrunning] at hmem
      cases hmem
    | leaving | closing | parting | gone =>
      rw [hx] at hstays
      exact absurd trivial hstays

end Invariant

theorem limitReached_iff {n : Nat} : c.limitReached n = true ↔ ∃ m, c.maxTasks = some m ∧ m ≤ n := by
  unfold Config.limitReached
  cases c.maxTasks <;> simp

theorem result_eq_ok {result : Result} (h : s.result = some (.ok result)) :
    s.phase = .returned (.ok ()) ∧ result = ⟨s.summary, s.candidates.size⟩ := by
  unfold State.result at h
  split at h <;> cases h
  exact ⟨‹_›, rfl⟩

/-! ## Who changes the summary -/

variable {a : Action}

theorem work_summary (h : s.work a = some s') : s'.summary = s.summary := by
  unfold State.work at h
  split at h
  · split at h <;> cases h
    rfl
  · split at h <;> cases h
    rfl
  · split at h <;> cases h
    rename_i outcome _ _ _
    cases outcome <;> rfl
  · split at h <;> cases h
    rfl
  · split at h <;> cases h
    rfl
  · split at h <;> cases h
    rfl
  · cases h

theorem shutDown_summary (h : s.shutDown c a = some s') : s'.summary = s.summary := by
  unfold State.shutDown at h
  split at h
  · split at h <;> cases h <;> rfl
  · split at h <;> cases h <;> rfl
  · split at h <;> cases h <;> rfl
  · split at h
    · split at h <;> cases h
      rfl
    · cases h
  · split at h
    · split at h <;> cases h
      rfl
    · cases h
  · cases h

theorem serve_summary (h : s.serve c a = some s') : s'.summary = s.summary ∨
    s'.summary = { s.summary with stopped := true } ∨ ∃ r ∈ s.reports, s'.summary = (s.absorb r).summary := by
  unfold State.serve at h
  split at h
  · split at h <;> cases h
    exact .inr (.inl rfl)
  · split at h <;> cases h
    exact .inl rfl
  · split at h <;> cases h
    rename_i r reports hreports
    refine .inr (.inr ⟨r, by rw [hreports]; exact List.mem_cons_self, ?_⟩)
    split <;> rfl
  · split at h <;> cases h
    exact .inl rfl
  · split at h <;> cases h <;> exact .inl rfl
  · split at h <;> cases h
    exact .inl rfl
  · cases h

variable [ChoiceSource G]

theorem fill_summary (h : s.fill c a = some s') : s'.summary = s.summary ∨ ∃ task, s.phase = .queueing task := by
  unfold State.fill at h
  split at h
  · split at h
    · left
      split at h
      · split at h <;> cases h <;> rfl
      · cases h
        rfl
    · cases h
  · split at h
    · exact .inr ⟨_, ‹_›⟩
    · cases h
  · cases h

theorem step_summary (h : s.step c a = some s') : s'.summary = s.summary ∨
    s'.summary = { s.summary with stopped := true } ∨ (∃ r ∈ s.reports, s'.summary = (s.absorb r).summary) ∨
    ∃ task, s.phase = .queueing task := by
  unfold State.step at h
  split at h
  · split at h <;> cases h
    exact .inl rfl
  · split at h <;> cases h
    exact .inl rfl
  · exact .inl (work_summary h)
  · exact .inl (work_summary h)
  · exact .inl (work_summary h)
  · exact .inl (work_summary h)
  · exact .inl (work_summary h)
  · exact .inl (work_summary h)
  · exact (fill_summary h).imp_right fun hqueueing => .inr (.inr hqueueing)
  · exact (fill_summary h).imp_right fun hqueueing => .inr (.inr hqueueing)
  · exact .inl (shutDown_summary h)
  · exact .inl (shutDown_summary h)
  · exact .inl (shutDown_summary h)
  · exact .inl (shutDown_summary h)
  · exact .inl (shutDown_summary h)
  all_goals
    obtain ⟨-, h⟩ := Invariant.serve_of_step h
    exact (serve_summary h).imp_right (Or.imp_right .inl)

variable {initial : MonteCarlo.Search G} {source : G}

/-- No task and no candidate is lost or dealt with twice. In the main loop every task that was given out is
in one place, the queue has a slot for every task that is about to be queued, and all candidates have
become tasks or wait, but for the one that the coordinator holds while it fills the queue. When the run
returns, its summary is made of the reports of all tasks. -/
theorem Reached.conserves_work (h : Reached c initial source s l) :
    (s.phase.InLoop →
      s.summary.assigned = s.summary.finishedCount + s.queue.length + s.running.length + s.reports.length +
        l.failures.length ∧
      (s.places l).Perm (List.range s.summary.assigned) ∧
      l.issued.map Task.id = List.range s.summary.assigned ∧
      s.queue.length ≤ c.crew ∧
      l.lost = [] ∧
      (∀ task, s.phase = .queueing task → s.queue.length < c.crew ∧
        ∃ s', s.step c .queueTask = some s' ∧ s'.queue = s.queue ++ [task] ∧
          s'.summary.assigned = s.summary.assigned + 1) ∧
      (l.absorbed.flatMap Report.candidates).length =
        s.summary.assigned - 1 + s.phase.hand.length + s.candidates.size ∧
      (l.absorbed.flatMap Report.candidates).Perm
        (l.issued.tail.map Task.root ++ s.phase.hand.map Task.root ++ s.candidates.nodes)) ∧
    ∀ result, s.result = some (.ok result) →
      (result.summary.finished.map FinishedTask.task).Perm (List.range result.summary.assigned) ∧
      result.summary.finished = l.absorbed.map Report.finished ∧
      result.summary.samples = l.absorbed.flatMap Report.samples ∧
      ∃ waiting, result.remaining = waiting.length ∧
        (l.absorbed.flatMap Report.candidates).Perm (l.issued.tail.map Task.root ++ waiting) := by
  have hinv := h.invariant
  refine ⟨fun hloop => ?_, fun result hresult => ?_⟩
  · have hu := hinv.undecided hloop
    have hcount := hinv.accounts.length_places
    rw [hu.dropped, List.length_nil, Nat.add_zero] at hcount
    refine ⟨hcount, hinv.accounts.places, hinv.accounts.issued_ids, hinv.accounts.slots, hinv.accounts.lost,
      fun task hphase => ?_, hinv.accounts.length_candidates, hinv.accounts.candidates⟩
    obtain ⟨hslot, -⟩ := hinv.queueTask hphase
    have hqueued : s.step c .queueTask = some
        { s with
          phase := .filling
          queue := s.queue ++ [task]
          summary := { s.summary with assigned := s.summary.assigned + 1 } } := by
      simp only [State.step, State.fill, hphase, if_pos hslot]
    exact ⟨hslot, _, hqueued, rfl, rfl⟩
  · obtain ⟨hphase, rfl⟩ := result_eq_ok hresult
    obtain ⟨hdone, -⟩ := hinv.of_returned hphase
    have hcandidates := hinv.accounts.candidates
    have hhand : s.phase.hand = [] := by
      rw [hphase]
      rfl
    rw [hhand, List.map_nil, List.append_nil] at hcandidates
    refine ⟨?_, hinv.accounts.finished, hinv.accounts.samples, s.candidates.nodes, rfl, hcandidates⟩
    rw [← hinv.places_eq_finished hdone]
    exact hinv.accounts.places

/-- The first task has given a candidate, and this is the second task. -/
theorem Reached.conserves_work_oneWorker : ∃ s l, Reached oneWorker smallSearch (.ofSeed 0) s l ∧
    s.phase.InLoop ∧ (s.places l).Perm [0, 1] ∧ s.queue.length = 1 ∧
      (l.absorbed.flatMap Report.candidates).length = 1 := by
  have hreached : Reached oneWorker smallSearch (.ofSeed 0) _ _ :=
    Reached.of_steps (reportTask [smallSearch.root] ++ [.prepareTask, .queueTask]) rfl
  obtain ⟨-, hplaces, -, -, -, -, hcandidates, -⟩ := hreached.conserves_work.1 trivial
  exact ⟨_, _, hreached, trivial, hplaces, rfl, hcandidates⟩

/-- After a stop signal nothing more is given out, and what is finished stays finished. -/
theorem Invariant.step_of_stopped (h : Invariant c s l) (hstopped : s.summary.stopped = true)
    (hstep : s.step c a = some s') : s'.summary.stopped = true ∧
      s'.summary.assigned = s.summary.assigned ∧ s.summary.finished <+: s'.summary.finished := by
  rcases step_summary hstep with hsame | hstop | ⟨r, -, habsorb⟩ | ⟨task, hphase⟩
  · rw [hsame]
    exact ⟨hstopped, rfl, List.prefix_refl _⟩
  · rw [hstop]
    exact ⟨rfl, rfl, List.prefix_refl _⟩
  · rw [habsorb]
    exact ⟨hstopped, rfl, List.prefix_append _ _⟩
  · have hfits := h.fits
    rw [hphase] at hfits
    rw [hfits.2.1] at hstopped
    cases hstopped

theorem Reached.steps_of_stopped {as : List Action} (h : Reached c initial source s l)
    (hstopped : s.summary.stopped = true) (hsteps : s.steps c as = some s') :
    s'.summary.assigned = s.summary.assigned ∧ s.summary.finished <+: s'.summary.finished := by
  induction as generalizing s l with
  | nil =>
    cases hsteps
    exact ⟨rfl, List.prefix_refl _⟩
  | cons a as ih =>
    obtain ⟨s₁, hstep, hsteps⟩ := Option.bind_eq_some_iff.mp hsteps
    obtain ⟨hstopped₁, hassigned, hfinished⟩ := h.invariant.step_of_stopped hstopped hstep
    obtain ⟨hrest, hmore⟩ := ih (h.step hstep) hstopped₁ hsteps
    exact ⟨hrest.trans hassigned, hfinished.trans hmore⟩

/-- The coordinator waits for messages only while assigned work is unfinished, and then somebody has
something to do. It never gives out more than the limit, and nothing after a stop signal, while reports are
taken as before. When the run returns well, all that was assigned is finished and there was a reason to
assign no more. -/
theorem Reached.stops_for_a_reason (h : Reached c initial source s l) :
    (s.phase = .serving → s.summary.finishedCount < s.summary.assigned ∧ s.Astir) ∧
    (∀ m, c.maxTasks = some m → s.summary.assigned ≤ max 1 m) ∧
    (s.summary.stopped = true → ∀ as s', s.steps c as = some s' →
      s'.summary.assigned = s.summary.assigned ∧ s.summary.finished <+: s'.summary.finished) ∧
    (s.phase = .serving → ∀ r reports, s.reports = r :: reports → ∃ s', s.step c .takeReport = some s' ∧
      s'.reports = reports ∧ s'.summary = (s.absorb r).summary) ∧
    ∀ result, s.result = some (.ok result) →
      result.summary.finishedCount = result.summary.assigned ∧
      (result.summary.stopped = true ∨ result.remaining = 0 ∨
        ∃ m, c.maxTasks = some m ∧ m ≤ result.summary.assigned) := by
  have hinv := h.invariant
  refine ⟨fun hphase => ?_, hinv.limit, fun hstopped as s' hsteps => h.steps_of_stopped hstopped hsteps,
    fun hphase r reports hreports => ?_, fun result hresult => ?_⟩
  · obtain ⟨-, hu, hlt⟩ := hinv.serving hphase
    exact ⟨hlt, hinv.not_idle hu hlt⟩
  · simp only [State.step, State.serve, hphase, hreports]
    refine ⟨_, rfl, ?_⟩
    split <;> exact ⟨rfl, rfl⟩
  · obtain ⟨hphase, rfl⟩ := result_eq_ok hresult
    obtain ⟨hdone, hreason⟩ := hinv.of_returned hphase
    refine ⟨hdone, ?_⟩
    rcases hreason with hnone | hstopped | hlimit
    · exact .inr (.inl (congrArg List.length hnone))
    · exact .inl hstopped
    · exact .inr (.inr (limitReached_iff.mp hlimit))

/-- The only task gives no candidate, so the run returns. -/
theorem Reached.stops_for_a_reason_oneWorker : ∃ s l result, Reached oneWorker smallSearch (.ofSeed 0) s l ∧
    s.result = some (.ok result) ∧ result.summary.finishedCount = result.summary.assigned ∧
      (result.summary.stopped = true ∨ result.remaining = 0 ∨
        ∃ m, oneWorker.maxTasks = some m ∧ m ≤ result.summary.assigned) := by
  have hreached : Reached oneWorker smallSearch (.ofSeed 0) _ _ :=
    Reached.of_steps (reportTask [] ++ [.prepareTask] ++ quitAndJoin) rfl
  obtain ⟨-, -, -, -, hreturned⟩ := hreached.stops_for_a_reason
  exact ⟨_, _, _, hreached, rfl, hreturned _ rfl⟩

end Coordinator
end HexGame
