import HexGame.Proofs.Coordinator.Ledger

/-!
# Workers and their notices

A worker leaves its loop once, with a sign to quit or with a task that took it along, and then says once
that it is gone. `Staff` ties the states of the workers to the notices that were sent: those of one worker
are notices of failures, followed by its farewell if it has said it. One turn of one worker keeps this
(`Staff.turn`).
-/
namespace HexGame
namespace Coordinator

variable {G : Type}

theorem Notice.worker_of_failed? {n : Notice} {w : Nat} (h : n.failed? = some w) : n.worker = w := by
  cases n with
  | failed v cause => exact Option.some.inj h
  | terminated v => cases h

namespace Worker

variable {x : Worker G} {w : Nat} {n : Notice}

theorem hasLeft_of_farewell (h : x.farewell w ≠ []) : x.HasLeft := by
  cases x with
  | waiting => exact h rfl
  | running task => exact h rfl
  | leaving | closing | parting | gone => trivial

theorem failed?_of_mem_farewell (h : n ∈ x.farewell w) : n.failed? = none := by
  cases x with
  | waiting | running _ | leaving => cases h
  | closing | parting | gone => rw [List.mem_singleton.mp h, Notice.failed?]

end Worker

structure Staff (c : Config) (s : State G) (l : Ledger G) : Prop where
  length_workers : s.workers.length = c.crew
  senders : ∀ n ∈ l.notices, n.worker < c.crew
  /-- What a worker has sent are failures and then its farewell. -/
  sent : ∀ w x, s.workers[w]? = some x → ∃ failures, (∀ n ∈ failures, n.failed? = some w) ∧
    l.notices.filter (·.worker = w) = failures ++ x.farewell w
  /-- Each failure was reported once, in the order of the failures. -/
  failures : l.notices.filterMap Notice.failed? = l.failures.map Failure.worker
  left : ∀ w x, s.workers[w]? = some x → x.HasLeft →
    w ∈ l.quitters ∨ ∃ f ∈ l.failures, f.worker = w ∧ f.panicked = true
  quitters_nodup : l.quitters.Nodup
  quitters_left : ∀ w ∈ l.quitters, ∃ x, s.workers[w]? = some x ∧ x.HasLeft

namespace Staff

variable {c : Config} {s s' : State G} {l l' : Ledger G} {w : Nat} {x y : Worker G}
  {notices : List Notice} {failures : List Failure} {quitters : List Nat}

theorem start (c : Config) (initial : MonteCarlo.Search G) (source : G) (stopSigns : Nat) (stopHeld : Bool) :
    Staff c (Coordinator.start c initial source stopSigns stopHeld) (.start initial) where
  length_workers := List.length_replicate
  senders := nofun
  sent w x hx := by
    obtain ⟨-, rfl⟩ := List.mem_replicate.mp (List.mem_of_getElem? hx)
    exact ⟨[], nofun, rfl⟩
  failures := rfl
  left w x hx hleft := by
    obtain ⟨-, rfl⟩ := List.mem_replicate.mp (List.mem_of_getElem? hx)
    exact hleft.elim
  quitters_nodup := List.nodup_nil
  quitters_left := nofun

/-- A worker turns from state `x` to state `y`. `notices` are those that it sends, all its own, `failures`
the ones that they report, and it is the one who takes a sign to quit. -/
theorem turn (h : Staff c s l) (hw : s.workers[w]? = some x) (hworkers : s'.workers = s.workers.set w y)
    (hnotices : l'.notices = l.notices ++ notices) (hfailures : l'.failures = l.failures ++ failures)
    (hquitters : l'.quitters = l.quitters ++ quitters) (hown : ∀ n ∈ notices, n.worker = w)
    (hreported : notices.filterMap Notice.failed? = failures.map Failure.worker)
    (hfarewell : ∃ fs, (∀ n ∈ fs, n.failed? = some w) ∧ x.farewell w ++ notices = fs ++ y.farewell w)
    (hstays : x.HasLeft → y.HasLeft)
    (hleft : y.HasLeft → x.HasLeft ∨ w ∈ quitters ∨ ∃ f ∈ failures, f.worker = w ∧ f.panicked = true)
    (hquits : quitters = [] ∨ quitters = [w] ∧ ¬ x.HasLeft ∧ y.HasLeft) : Staff c s' l' where
  length_workers := by rw [hworkers, List.length_set, h.length_workers]
  senders := by
    rw [hnotices]
    refine List.forall_mem_append.mpr ⟨h.senders, fun n hn => ?_⟩
    rw [hown n hn, ← h.length_workers]
    exact (List.getElem?_eq_some_iff.mp hw).1
  sent v z hz := by
    rw [hworkers, List.getElem?_set] at hz
    rw [hnotices, List.filter_append]
    split at hz
    · rename_i hv
      subst hv
      split at hz <;> cases hz
      obtain ⟨fs, hfs, hsent⟩ := h.sent w x hw
      obtain ⟨gs, hgs, hrest⟩ := hfarewell
      refine ⟨fs ++ gs, List.forall_mem_append.mpr ⟨hfs, hgs⟩, ?_⟩
      have hall : notices.filter (·.worker = w) = notices :=
        List.filter_eq_self.mpr fun n hn => decide_eq_true (hown n hn)
      rw [hall, hsent, List.append_assoc, hrest, List.append_assoc]
    · rename_i hv
      have hnone : notices.filter (·.worker = v) = [] :=
        List.filter_eq_nil_iff.mpr fun n hn => by simpa [hown n hn] using hv
      rw [hnone, List.append_nil]
      exact h.sent v z hz
  failures := by
    rw [hnotices, hfailures, List.filterMap_append, List.map_append, h.failures, hreported]
  left v z hz hv := by
    rw [hworkers, List.getElem?_set] at hz
    rw [hquitters, hfailures]
    have hold (hearlier : v ∈ l.quitters ∨ ∃ f ∈ l.failures, f.worker = v ∧ f.panicked = true) :
        v ∈ l.quitters ++ quitters ∨ ∃ f ∈ l.failures ++ failures, f.worker = v ∧ f.panicked = true :=
      hearlier.imp (List.mem_append_left _) fun ⟨f, hf, hfv⟩ => ⟨f, List.mem_append_left _ hf, hfv⟩
    split at hz
    · rename_i hv
      subst hv
      split at hz <;> cases hz
      rcases hleft hv with hx | hquit | ⟨f, hf, hfv⟩
      · exact hold (h.left w x hw hx)
      · exact .inl (List.mem_append_right _ hquit)
      · exact .inr ⟨f, List.mem_append_right _ hf, hfv⟩
    · exact hold (h.left v z hz hv)
  quitters_nodup := by
    rw [hquitters]
    rcases hquits with rfl | ⟨rfl, hx, -⟩
    · rw [List.append_nil]
      exact h.quitters_nodup
    · refine List.nodup_append.mpr ⟨h.quitters_nodup, by simp, fun v hv u hu hvu => hx ?_⟩
      obtain ⟨z, hz, hleft⟩ := h.quitters_left v hv
      rw [hvu, List.mem_singleton.mp hu, hw] at hz
      cases hz
      exact hleft
  quitters_left v hv := by
    have hlt := (List.getElem?_eq_some_iff.mp hw).1
    rw [hquitters] at hv
    rw [hworkers]
    by_cases hvw : w = v
    · subst hvw
      refine ⟨y, List.getElem?_set_self hlt, ?_⟩
      rcases hquits with rfl | ⟨rfl, -, hy⟩
      · rw [List.append_nil] at hv
        obtain ⟨z, hz, hleft⟩ := h.quitters_left w hv
        rw [hw] at hz
        cases hz
        exact hstays hleft
      · exact hy
    · rw [List.getElem?_set_ne hvw]
      rcases List.mem_append.mp hv with hv | hv
      · exact h.quitters_left v hv
      · rcases hquits with rfl | ⟨rfl, -, -⟩
        · cases hv
        · exact absurd (List.mem_singleton.mp hv).symm hvw

theorem quiet (h : Staff c s l) (hw : s.workers[w]? = some x) (hworkers : s'.workers = s.workers.set w y)
    (hfarewell : x.farewell w = y.farewell w) (hleft : y.HasLeft ↔ x.HasLeft) : Staff c s' l :=
  h.turn hw hworkers (List.append_nil _).symm (List.append_nil _).symm (List.append_nil _).symm nofun rfl
    ⟨[], nofun, by rw [hfarewell, List.append_nil, List.nil_append]⟩ hleft.mpr (fun hy => .inl (hleft.mp hy))
    (.inl rfl)

theorem quit (h : Staff c s l) (hw : s.workers[w]? = some .waiting)
    (hworkers : s'.workers = s.workers.set w .leaving) :
    Staff c s' { l with quitters := l.quitters ++ [w] } :=
  h.turn hw hworkers (List.append_nil _).symm (List.append_nil _).symm rfl nofun rfl ⟨[], nofun, rfl⟩ nofun
    (fun _ => .inr (.inl List.mem_cons_self)) (.inr ⟨rfl, id, trivial⟩)

theorem announce (h : Staff c s l) (hw : s.workers[w]? = some .leaving)
    (hworkers : s'.workers = s.workers.set w .closing) :
    Staff c s' { l with notices := l.notices ++ [.terminated w] } :=
  h.turn hw hworkers rfl (List.append_nil _).symm (List.append_nil _).symm
    (fun n hn => by rw [List.mem_singleton.mp hn, Notice.worker]) rfl ⟨[], nofun, rfl⟩ (fun _ => trivial)
    (fun _ => .inl trivial) (.inl rfl)

/-- A task ends. With an error the worker says so, and with a fault it also leaves. -/
theorem conclude {task : Task G} (h : Staff c s l) (hw : s.workers[w]? = some (.running task))
    (outcome : TaskOutcome) : Staff c (s.conclude w task outcome) (l.conclude w task outcome) := by
  cases outcome with
  | reported iterations root nodes harvest => exact h.quiet hw rfl rfl .rfl
  | failed cause =>
    refine h.turn hw rfl rfl rfl (List.append_nil _).symm ?_ rfl ⟨[.failed w cause], ?_, rfl⟩ nofun nofun
      (.inl rfl)
    · exact fun n hn => by rw [List.mem_singleton.mp hn, Notice.worker]
    · exact fun n hn => by rw [List.mem_singleton.mp hn, Notice.failed?]
  | faulted cause =>
    refine h.turn hw rfl rfl rfl (List.append_nil _).symm ?_ rfl ⟨[.failed w (.faulted cause.message)], ?_, rfl⟩
      nofun (fun _ => .inr (.inr ⟨_, List.mem_cons_self, rfl, rfl⟩)) (.inl rfl)
    · exact fun n hn => by rw [List.mem_singleton.mp hn, Notice.worker]
    · exact fun n hn => by rw [List.mem_singleton.mp hn, Notice.failed?]

/-- As long as nobody has taken a sign to quit, a worker leaves with a task only. -/
theorem panicked (h : Staff c s l) (hquitters : l.quitters = []) (hw : s.workers[w]? = some x)
    (hx : x.HasLeft) : ∃ f ∈ l.failures, f.worker = w ∧ f.panicked = true := by
  have hleft := h.left w x hw hx
  rw [hquitters] at hleft
  exact hleft.resolve_left List.not_mem_nil

/-- As long as nobody has taken a sign to quit, a farewell is not the first notice. -/
theorem first_ne_terminated (h : Staff c s l) (hquitters : l.quitters = []) :
    l.notices ≠ .terminated w :: notices := by
  intro hnotices
  have hw : w < s.workers.length := by
    rw [h.length_workers]
    exact h.senders (.terminated w) (by rw [hnotices]; exact List.mem_cons_self)
  have hx := List.getElem?_eq_getElem hw
  obtain ⟨fs, hfs, hsent⟩ := h.sent w _ hx
  have hfirst : .terminated w :: notices.filter (·.worker = w) = fs ++ s.workers[w].farewell w := by
    rw [← hsent, hnotices]
    simp [Notice.worker]
  cases fs with
  | cons n fs =>
    have hn := hfs n List.mem_cons_self
    rw [← (List.cons.inj hfirst).1] at hn
    cases hn
  | nil =>
    -- It has said farewell, so it has left, and as nobody took a sign to quit it has sent a failure too.
    have hsaid : s.workers[w].farewell w ≠ [] := fun hnone => List.cons_ne_nil _ _ (hfirst.trans hnone)
    have hleft := Worker.hasLeft_of_farewell hsaid
    obtain ⟨f, hf, hfw, -⟩ := h.panicked hquitters hx hleft
    have hw : w ∈ l.notices.filterMap Notice.failed? := by
      rw [h.failures, ← hfw]
      exact List.mem_map_of_mem hf
    obtain ⟨n, hn, hfailed⟩ := List.mem_filterMap.mp hw
    have hmem : n ∈ l.notices.filter (·.worker = w) :=
      List.mem_filter.mpr ⟨hn, decide_eq_true (Notice.worker_of_failed? hfailed)⟩
    rw [hsent] at hmem
    rw [Worker.failed?_of_mem_farewell hmem] at hfailed
    cases hfailed

end Staff
end Coordinator
end HexGame
