import HexGame.Proofs.Coordinator.Accounts
import HexGame.Proofs.Coordinator.Staff

/-!
# What holds in every phase

`Phase.Fits` says for each phase of the coordinator what is known in it: in the main loop nobody has been
told to quit and no notice has been taken, while it serves there is unfinished work, and a verdict, once
there is one, has its reason (`Justified`). With the accounts and the staff this is preserved by every
action, so it holds in every state that is reached (`Reached.invariant`).
-/
namespace HexGame
namespace Coordinator

variable {G : Type} {c : Config} {s s' : State G} {l l' : Ledger G}

/-- The reason for which the main loop has been left. -/
inductive Justified (c : Config) (s : State G) (l : Ledger G) : Verdict → Prop
  | done (hfinished : s.summary.finishedCount = s.summary.assigned)
    (hreason : s.candidates.nodes = [] ∨ s.summary.stopped = true ∨ c.limitReached s.summary.assigned = true) :
    Justified c s l (.ok ())
  | failed {w : Nat} {cause : Error} (hsent : .failed w cause ∈ l.notices) :
    Justified c s l (.error (.workerFailed w cause.message))
  | gone (hall : ∀ w < c.crew, ∃ f ∈ l.failures, f.worker = w ∧ f.panicked = true) :
    Justified c s l (.error .workersGone)

/-- The coordinator has not begun to shut down. -/
structure Undecided (s : State G) (l : Ledger G) : Prop where
  dropped : l.dropped = []
  quitters : l.quitters = []
  quitSigns : s.quitSigns = 0
  notices : s.notices = l.notices

/-- What is known in a phase. The signs to quit are the ones that were taken, the ones that wait and the
ones that are still to be sent. -/
def Phase.Fits (c : Config) (s : State G) (l : Ledger G) : Phase G → Prop
  | .serving => Undecided s l ∧ s.summary.finishedCount < s.summary.assigned
  | .filling => Undecided s l ∧ s.summary.stopped = false
  | .queueing task => Undecided s l ∧ s.summary.stopped = false ∧ task.id = s.summary.assigned ∧
    c.limitReached s.summary.assigned = false ∧ s.queue.length < c.crew
  | .draining verdict => Justified c s l verdict ∧ l.quitters.length + s.quitSigns = 0
  | .quitting verdict unsent => Justified c s l verdict ∧ l.quitters.length + s.quitSigns + unsent = c.crew
  | .awaiting verdict _ => Justified c s l verdict ∧ l.quitters.length + s.quitSigns = c.crew
  | .joining verdict => Justified c s l verdict ∧ l.quitters.length + s.quitSigns = c.crew
  | .returned verdict => Justified c s l verdict ∧ l.quitters.length + s.quitSigns = c.crew ∧
    s.allGone = true

structure Invariant (c : Config) (s : State G) (l : Ledger G) : Prop where
  accounts : Accounts c s.phase.hand s l
  staff : Staff c s l
  fits : s.phase.Fits c s l
  limit : ∀ m, c.maxTasks = some m → s.summary.assigned ≤ max 1 m

theorem Justified.congr {verdict : Verdict} (h : Justified c s l verdict) (hsummary : s'.summary = s.summary)
    (hcandidates : s'.candidates = s.candidates) (hfailures : l.failures ⊆ l'.failures)
    (hnotices : l.notices ⊆ l'.notices) : Justified c s' l' verdict := by
  cases h with
  | done hfinished hreason => exact .done (by rwa [hsummary]) (by rwa [hsummary, hcandidates])
  | failed hsent => exact .failed (hnotices hsent)
  | gone hall =>
    refine .gone fun w hw => ?_
    obtain ⟨f, hf, hfw⟩ := hall w hw
    exact ⟨f, hfailures hf, hfw⟩

theorem allGone_iff : s.allGone = true ↔ ∀ x ∈ s.workers, x = .gone := by
  rw [State.allGone, List.all_eq_true]
  refine forall₂_congr fun x _ => ?_
  cases x <;> simp

theorem hasLeft_of_reportsClosed (h : s.reportsClosed = true) {x : Worker G} (hx : x ∈ s.workers) :
    x.HasLeft := by
  have hx := List.all_eq_true.mp h x hx
  cases x with
  | waiting | running _ | leaving | closing => cases hx
  | parting | gone => trivial

/-! ## Actions of the workers and of the world -/

/-- What everybody but the coordinator leaves alone. -/
structure Undisturbed (s s' : State G) (l l' : Ledger G) : Prop where
  phase : s'.phase = s.phase
  summary : s'.summary = s.summary
  candidates : s'.candidates = s.candidates
  queue : s'.queue.length ≤ s.queue.length
  quits : l'.quitters.length + s'.quitSigns = l.quitters.length + s.quitSigns
  notices : s.notices = l.notices → s'.notices = l'.notices
  dropped : l'.dropped = l.dropped
  failures : l.failures ⊆ l'.failures
  sent : l.notices ⊆ l'.notices
  allGone : s.allGone = true → s'.allGone = true

namespace Undisturbed

theorem refl (s : State G) (l : Ledger G) : Undisturbed s s l l :=
  ⟨rfl, rfl, rfl, Nat.le_refl _, rfl, id, rfl, .refl _, .refl _, id⟩

theorem undecided (u : Undisturbed s s' l l') (h : Undecided s l) : Undecided s' l' := by
  have hquits := u.quits
  rw [h.quitters, h.quitSigns, List.length_nil] at hquits
  exact ⟨u.dropped.trans h.dropped, List.length_eq_zero_iff.mp (by omega), by omega, u.notices h.notices⟩

theorem fits (u : Undisturbed s s' l l') {phase : Phase G} (h : phase.Fits c s l) : phase.Fits c s' l' := by
  have hjustified {verdict : Verdict} (h : Justified c s l verdict) : Justified c s' l' verdict :=
    h.congr u.summary u.candidates u.failures u.sent
  unfold Phase.Fits at h ⊢
  rw [u.summary, u.quits]
  cases phase with
  | serving | filling => exact h.imp_left u.undecided
  | queueing task =>
    obtain ⟨hundecided, hstopped, hid, hlimit, hslot⟩ := h
    exact ⟨u.undecided hundecided, hstopped, hid, hlimit, Nat.lt_of_le_of_lt u.queue hslot⟩
  | draining | quitting | awaiting | joining => exact h.imp_left hjustified
  | returned => exact h.imp hjustified (And.imp_right u.allGone)

theorem invariant (u : Undisturbed s s' l l') (h : Invariant c s l) (ha : Accounts c s.phase.hand s' l')
    (hs : Staff c s' l') : Invariant c s' l' where
  accounts := by rwa [u.phase]
  staff := hs
  fits := by
    rw [u.phase]
    exact u.fits h.fits
  limit := by
    rw [u.summary]
    exact h.limit

end Undisturbed

namespace Invariant

variable {w : Nat} {x y : Worker G} {task : Task G}

theorem not_allGone (hw : s.workers[w]? = some x) (hx : x ≠ .gone) : s.allGone ≠ true :=
  fun h => hx (allGone_iff.mp h x (List.mem_of_getElem? hw))

theorem takeTask {queue : List (Task G)} (h : Invariant c s l) (hw : s.workers[w]? = some .waiting)
    (hqueue : s.queue = task :: queue) : Invariant c { s.setWorker w (.running task) with queue } l := by
  refine Undisturbed.invariant ?_ h (h.accounts.take hw hqueue) (h.staff.quiet hw rfl rfl .rfl)
  exact { Undisturbed.refl s l with
    queue := by
      rw [hqueue, List.length_cons]
      exact Nat.le_succ _
    allGone := fun hgone => absurd hgone (not_allGone hw nofun) }

theorem takeQuit {n : Nat} (h : Invariant c s l) (hw : s.workers[w]? = some .waiting)
    (hsigns : s.quitSigns = n + 1) :
    Invariant c { s.setWorker w .leaving with quitSigns := n } { l with quitters := l.quitters ++ [w] } := by
  have ha := h.accounts.idle hw rfl (show Worker.leaving.task? = none from rfl)
  refine Undisturbed.invariant ?_ h { ha with } (h.staff.quit hw rfl)
  have hquits : (l.quitters ++ [w]).length + n = l.quitters.length + s.quitSigns := by
    rw [List.length_append, List.length_singleton, hsigns]
    omega
  exact { Undisturbed.refl s l with
    quits := hquits
    allGone := fun hgone => absurd hgone (not_allGone hw nofun) }

theorem finishTask (h : Invariant c s l) (hw : s.workers[w]? = some (.running task)) (outcome : TaskOutcome) :
    Invariant c (s.conclude w task outcome) (l.conclude w task outcome) := by
  refine Undisturbed.invariant ?_ h (h.accounts.conclude hw outcome) (h.staff.conclude hw outcome)
  have hgone : s.allGone ≠ true := not_allGone hw nofun
  cases outcome with
  | reported => exact { Undisturbed.refl s l with allGone := fun hall => absurd hall hgone }
  | failed | faulted =>
    exact { Undisturbed.refl s l with
      notices := congrArg (· ++ _)
      failures := List.subset_append_left _ _
      sent := List.subset_append_left _ _
      allGone := fun hall => absurd hall hgone }

theorem announceEnd (h : Invariant c s l) (hw : s.workers[w]? = some .leaving) :
    Invariant c { s.setWorker w .closing with notices := s.notices ++ [.terminated w] }
      { l with notices := l.notices ++ [.terminated w] } := by
  have ha := h.accounts.idle hw rfl (show Worker.closing.task? = none from rfl)
  refine Undisturbed.invariant ?_ h { ha with } (h.staff.announce hw rfl)
  exact { Undisturbed.refl s l with
    notices := congrArg (· ++ _)
    sent := List.subset_append_left _ _
    allGone := fun hgone => absurd hgone (not_allGone hw nofun) }

/-- A worker that has said that it is gone lets go of a channel. -/
theorem hangUp (h : Invariant c s l) (hw : s.workers[w]? = some x) (hx : x.task? = none) (hy : y.task? = none)
    (hfarewell : x.farewell w = y.farewell w) (hleft : y.HasLeft ↔ x.HasLeft) (hgone : x ≠ .gone) :
    Invariant c (s.setWorker w y) l := by
  refine Undisturbed.invariant ?_ h (h.accounts.idle hw hx hy) (h.staff.quiet hw rfl hfarewell hleft)
  exact { Undisturbed.refl s l with allGone := fun hall => absurd hall (not_allGone hw hgone) }

theorem signal (h : Invariant c s l) (stopSigns : Nat) (stopHeld : Bool) :
    Invariant c { s with stopSigns, stopHeld } l := by
  refine Undisturbed.invariant ?_ h { h.accounts with } { h.staff with }
  exact { Undisturbed.refl s l with }

/-- After the return the verdict has its reason, all signs to quit were sent and nobody is left. -/
theorem returned {verdict : Verdict} (h : Invariant c s l) (hphase : s.phase = .returned verdict) :
    Justified c s l verdict ∧ l.quitters.length + s.quitSigns = c.crew ∧ s.allGone = true := by
  have hfits := h.fits
  rw [hphase] at hfits
  exact hfits

/-! ## The main loop -/

/-- A turn of the main loop ends. If all work is done, there has to be a reason not to go on. -/
theorem settle (ha : Accounts c [] s l) (hs : Staff c s l) (hu : Undecided s l)
    (hlimit : ∀ m, c.maxTasks = some m → s.summary.assigned ≤ max 1 m)
    (hreason : s.summary.finishedCount = s.summary.assigned → s.candidates.nodes = [] ∨
      s.summary.stopped = true ∨ c.limitReached s.summary.assigned = true) : Invariant c (s.settle c) l := by
  have hcount := ha.length_places
  unfold State.settle
  dsimp only
  split
  · rename_i hleave
    simp only [Bool.and_eq_true, decide_eq_true_eq] at hleave
    have hdone := hleave.1.symm
    refine ⟨{ ha with }, { hs with }, ⟨.done hdone (hreason hdone), ?_⟩, hlimit⟩
    show l.quitters.length + s.quitSigns = 0
    rw [hu.quitters, hu.quitSigns, List.length_nil]
  · rename_i hstay
    refine ⟨{ ha with }, { hs with }, ⟨{ hu with }, ?_⟩, hlimit⟩
    show s.summary.finishedCount < s.summary.assigned
    have hne : s.summary.finishedCount ≠ s.summary.assigned := by
      intro hdone
      apply hstay
      simpa [hdone, CandidateList.isEmpty_iff, or_assoc] using hreason hdone
    omega

theorem serving (h : Invariant c s l) (hphase : s.phase = .serving) :
    Accounts c [] s l ∧ Undecided s l ∧ s.summary.finishedCount < s.summary.assigned := by
  have ha := h.accounts
  have hfits := h.fits
  rw [hphase] at ha hfits
  exact ⟨ha, hfits⟩

theorem goOn {summary : Summary} {stopSigns : Nat} {stopWatched : Bool} (h : Invariant c s l)
    (hphase : s.phase = .serving) (hsummary : summary = { s.summary with stopped := summary.stopped }) :
    Invariant c (State.settle c { s with summary, stopSigns, stopWatched }) l := by
  obtain ⟨ha, hu, hlt⟩ := h.serving hphase
  have hlimit := h.limit
  rw [hsummary]
  exact settle { ha with } { h.staff with } { hu with } hlimit fun hdone => absurd hdone (Nat.ne_of_lt hlt)

theorem takeReport {r : Report} {reports : List Report} (h : Invariant c s l) (hphase : s.phase = .serving)
    (hreports : s.reports = r :: reports) :
    Invariant c
      (if ({ s with reports }.absorb r).summary.stopped then ({ s with reports }.absorb r).settle c
        else { { s with reports }.absorb r with phase := .filling })
      { l with absorbed := l.absorbed ++ [r] } := by
  obtain ⟨ha, hu, -⟩ := h.serving hphase
  have ha := ha.absorb hreports
  split
  · rename_i hstopped
    exact settle ha { h.staff with } { hu with } h.limit fun _ => .inr (.inl hstopped)
  · rename_i hstopped
    exact ⟨{ ha with }, { h.staff with }, ⟨{ hu with }, Bool.eq_false_iff.mpr hstopped⟩, h.limit⟩

theorem fail {cause : Error} {notices : List Notice} (h : Invariant c s l) (hphase : s.phase = .serving)
    (hjustified : Justified c s l (.error cause)) : Invariant c ({ s with notices }.fail cause) l := by
  obtain ⟨ha, hu, -⟩ := h.serving hphase
  refine ⟨{ ha with }, { h.staff with }, ⟨hjustified.congr rfl rfl (.refl _) (.refl _), ?_⟩, h.limit⟩
  show l.quitters.length + s.quitSigns = 0
  rw [hu.quitters, hu.quitSigns, List.length_nil]

theorem workersGone (h : Invariant c s l) (hphase : s.phase = .serving)
    (hall : ∀ x ∈ s.workers, x.HasLeft) : Justified c s l (.error .workersGone) := by
  obtain ⟨-, hu, -⟩ := h.serving hphase
  refine .gone fun w hw => ?_
  rw [← h.staff.length_workers] at hw
  exact h.staff.panicked hu.quitters (List.getElem?_eq_getElem hw) (hall _ (List.getElem_mem hw))

theorem workerFailed {cause : Error} {notices : List Notice} (h : Invariant c s l) (hphase : s.phase = .serving)
    (hnotices : s.notices = .failed w cause :: notices) :
    Justified c s l (.error (.workerFailed w cause.message)) := by
  obtain ⟨-, hu, -⟩ := h.serving hphase
  refine .failed ?_
  rw [← hu.notices, hnotices]
  exact List.mem_cons_self

/-! ## Filling the queue -/

theorem prepareTask [ChoiceSource G] {s' : State G} (h : Invariant c s l) (hphase : s.phase = .filling)
    (hstep : s.fill c .prepareTask = some s') : Invariant c s' l := by
  have ha := h.accounts
  have hfits := h.fits
  rw [hphase] at ha hfits
  obtain ⟨hu, hstopped⟩ := hfits
  simp only [State.fill, hphase] at hstep
  split at hstep
  · rename_i hroom
    simp only [Bool.and_eq_true, decide_eq_true_eq, Bool.not_eq_true'] at hroom
    split at hstep
    · cases hstep
    · rename_i hserve
      cases hstep
      have hnone := CandidateList.isEmpty_iff.mp (CandidateList.isEmpty_of_next_eq_none (CandidateList.next_of_serve hserve))
      exact settle ha h.staff hu h.limit fun _ => .inl hnone
    · rename_i t candidates hserve
      cases hstep
      obtain ⟨hperm, hlength⟩ := CandidateList.next_eq_some (CandidateList.next_of_serve hserve)
      have hbuckets : candidates.buckets ≠ [] := by
        rw [← List.length_pos_iff, hlength]
        exact List.length_pos_iff.mpr ha.buckets_ne_nil
      exact ⟨ha.prepare hperm hbuckets rfl, { h.staff with }, ⟨{ hu with }, hstopped, rfl, hroom.2, hroom.1⟩,
        h.limit⟩
  · rename_i hfull
    cases hstep
    refine settle ha h.staff hu h.limit fun hdone => .inr (.inr ?_)
    -- A full queue holds unfinished work.
    have hcount := ha.length_places
    have hcrew : 0 < c.crew := Nat.le_max_left 1 c.workers
    have hroom : s.queue.length < c.crew := by omega
    simpa [hroom] using hfull

theorem queueTask (h : Invariant c s l) (hphase : s.phase = .queueing task) :
    s.queue.length < c.crew ∧ Invariant c
      { s with
        phase := .filling
        queue := s.queue ++ [task]
        summary := { s.summary with assigned := s.summary.assigned + 1 } }
      { l with issued := l.issued ++ [task] } := by
  have ha := h.accounts
  have hfits := h.fits
  rw [hphase] at ha hfits
  obtain ⟨hu, hstopped, hid, hlimit, hslot⟩ := hfits
  refine ⟨hslot, ha.queue hid hslot, { h.staff with }, ⟨{ hu with }, hstopped⟩, fun m hm => ?_⟩
  have hm : ¬ m ≤ s.summary.assigned := by simpa [Config.limitReached, hm] using hlimit
  show s.summary.assigned + 1 ≤ max 1 m
  omega

/-! ## Shutting down -/

variable {verdict : Verdict}

theorem dropTask {queue : List (Task G)} (h : Invariant c s l) (hphase : s.phase = .draining verdict)
    (hqueue : s.queue = task :: queue) :
    Invariant c { s with queue } { l with dropped := l.dropped ++ [task] } := by
  have hfits := h.fits
  rw [hphase] at hfits
  refine ⟨h.accounts.drop hqueue, { h.staff with }, ?_, h.limit⟩
  show Phase.Fits c _ _ s.phase
  rw [hphase]
  exact hfits.imp_left fun hj => hj.congr rfl rfl (.refl _) (.refl _)

/-- The coordinator goes on with shutting down. The verdict stays what it is. -/
theorem proceed {phase : Phase G} {quitSigns : Nat} {notices : List Notice} (phase' : Phase G)
    (h : Invariant c s l) (hphase : s.phase = phase) (hhand : phase.hand = phase'.hand)
    (hfits : phase.Fits c s l → phase'.Fits c { s with phase := phase', quitSigns, notices } l) :
    Invariant c { s with phase := phase', quitSigns, notices } l := by
  subst hphase
  have ha := h.accounts
  rw [hhand] at ha
  exact ⟨{ ha with }, { h.staff with }, hfits h.fits, h.limit⟩

end Invariant
end Coordinator
end HexGame
