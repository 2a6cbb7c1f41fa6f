import HexGame.Proofs.Coordinator.Invariant

/-!
# The invariant in every state

Each action of each participant keeps the invariant (`Invariant.step`). So it holds in every state that is
reached, whatever the order of the actions (`Reached.invariant`).
-/
namespace HexGame
namespace Coordinator

variable {G : Type} {c : Config} {s s' : State G} {l : Ledger G} {a : Action}

namespace Invariant

theorem start (c : Config) (initial : MonteCarlo.Search G) (source : G) (stopSigns : Nat) (stopHeld : Bool) :
    Invariant c (Coordinator.start c initial source stopSigns stopHeld) (.start initial) where
  accounts := .start c initial source stopSigns stopHeld
  staff := .start c initial source stopSigns stopHeld
  fits := ⟨⟨rfl, rfl, rfl, rfl⟩, Nat.one_pos⟩
  limit _ _ := Nat.le_max_left 1 _

theorem serve_of_step {o : Option (State G)}
    (h : (match s.phase with
      | .serving => o
      | _ => none) = some s') : s.phase = .serving ∧ o = some s' := by
  split at h
  · exact ⟨‹_›, h⟩
  · cases h

theorem step_serve (h : Invariant c s l) (hphase : s.phase = .serving) (hstep : s.serve c a = some s') :
    Invariant c s' (l.note c s a) := by
  unfold State.serve at hstep
  split at hstep
  · split at hstep <;> cases hstep
    exact h.goOn hphase rfl
  · split at hstep <;> cases hstep
    exact h.goOn hphase rfl
  · split at hstep
    · cases hstep
    · rename_i r reports hreports
      cases hstep
      simp only [Ledger.note, hreports, List.head?_cons, Option.toList_some]
      exact h.takeReport hphase hreports
  · split at hstep <;> cases hstep
    rename_i hclosed
    have hclosed := (Bool.and_eq_true_iff.mp hclosed).2
    exact h.fail hphase (h.workersGone hphase fun x hx => hasLeft_of_reportsClosed hclosed hx)
  · split at hstep <;> cases hstep
    · rename_i w cause notices hnotices
      exact h.fail hphase (h.workerFailed hphase hnotices)
    · rename_i w notices hnotices
      obtain ⟨-, hu, -⟩ := h.serving hphase
      rw [hu.notices] at hnotices
      exact absurd hnotices (h.staff.first_ne_terminated hu.quitters)
  · split at hstep <;> cases hstep
    rename_i hclosed
    have hgone := allGone_iff.mp (Bool.and_eq_true_iff.mp hclosed).2
    exact h.fail hphase (h.workersGone hphase fun x hx => hgone x hx ▸ trivial)
  · cases hstep

theorem step_shutDown (h : Invariant c s l) (hstep : s.shutDown c a = some s') :
    Invariant c s' (l.note c s a) := by
  have hkept {phase : Phase G} {quitSigns : Nat} {notices : List Notice} {verdict : Verdict}
      (hj : Justified c s l verdict) : Justified c { s with phase, quitSigns, notices } l verdict :=
    hj.congr rfl rfl (.refl _) (.refl _)
  unfold State.shutDown at hstep
  split at hstep
  · split at hstep
    · rename_i task queue hphase hqueue
      cases hstep
      simp only [Ledger.note, hqueue, List.head?_cons, Option.toList_some]
      exact h.dropTask hphase hqueue
    · rename_i verdict hphase hqueue
      cases hstep
      have hnote : l.note c s .drain = l := by
        rw [Ledger.note, hqueue, List.head?_nil, Option.toList_none, List.append_nil]
      rw [hnote]
      refine h.proceed (.quitting verdict c.crew) hphase rfl fun ⟨hj, hquits⟩ => ⟨hkept hj, ?_⟩
      exact (congrArg (· + c.crew) hquits).trans (Nat.zero_add _)
    · cases hstep
  · split at hstep
    · rename_i verdict unsent hphase
      cases hstep
      refine h.proceed (.quitting verdict unsent) hphase rfl fun ⟨hj, hquits⟩ => ⟨hkept hj, ?_⟩
      have hroom : s.quitSigns < c.crew := by omega
      simp only [if_pos hroom]
      omega
    · rename_i verdict hphase
      cases hstep
      exact h.proceed (.awaiting verdict 0) hphase rfl fun ⟨hj, hquits⟩ => ⟨hkept hj, hquits⟩
    · cases hstep
  · split at hstep
    · rename_i verdict n w notices hphase hnotices
      cases hstep
      split
      · exact h.proceed (.awaiting verdict (n + 1)) hphase rfl fun ⟨hj, hquits⟩ => ⟨hkept hj, hquits⟩
      · exact h.proceed (.joining verdict) hphase rfl fun ⟨hj, hquits⟩ => ⟨hkept hj, hquits⟩
    · rename_i verdict n w cause notices hphase hnotices
      cases hstep
      have hnext : Invariant c { s with phase := .awaiting verdict n, notices } l :=
        h.proceed (.awaiting verdict n) hphase rfl fun ⟨hj, hquits⟩ => ⟨hkept hj, hquits⟩
      rwa [← hphase] at hnext
    · cases hstep
  · split at hstep
    · rename_i verdict n hphase hnotices
      split at hstep <;> cases hstep
      exact h.proceed (.joining verdict) hphase rfl fun ⟨hj, hquits⟩ => ⟨hkept hj, hquits⟩
    · cases hstep
  · split at hstep
    · rename_i verdict hphase
      split at hstep <;> cases hstep
      exact h.proceed (.returned verdict) hphase rfl fun ⟨hj, hquits⟩ => ⟨hkept hj, hquits, ‹_›⟩
    · cases hstep
  · cases hstep

theorem step_work (h : Invariant c s l) (hstep : s.work a = some s') : Invariant c s' (l.note c s a) := by
  unfold State.work at hstep
  split at hstep
  · split at hstep <;> cases hstep
    exact h.takeTask ‹_› ‹_›
  · split at hstep <;> cases hstep
    exact h.takeQuit ‹_› ‹_›
  · split at hstep <;> cases hstep
    rename_i w outcome _ task hw
    simp only [Ledger.note, hw]
    exact h.finishTask hw outcome
  · split at hstep <;> cases hstep
    exact h.announceEnd ‹_›
  · split at hstep <;> cases hstep
    rename_i hw
    exact h.hangUp hw rfl rfl rfl .rfl nofun
  · split at hstep <;> cases hstep
    rename_i hw
    exact h.hangUp hw rfl rfl rfl .rfl nofun
  · cases hstep

variable [ChoiceSource G]

theorem step_fill (h : Invariant c s l) (hstep : s.fill c a = some s') : Invariant c s' (l.note c s a) := by
  have hfill := hstep
  unfold State.fill at hstep
  split at hstep
  · split at hstep
    · exact h.prepareTask ‹_› hfill
    · cases hstep
  · split at hstep
    · rename_i task hphase
      obtain ⟨hslot, hqueued⟩ := h.queueTask hphase
      cases hstep
      simp only [Ledger.note, hphase, if_pos hslot]
      exact hqueued
    · cases hstep
  · cases hstep

theorem step (h : Invariant c s l) (hstep : s.step c a = some s') : Invariant c s' (l.note c s a) := by
  unfold State.step at hstep
  split at hstep
  · split at hstep <;> cases hstep
    exact h.signal _ _
  · split at hstep <;> cases hstep
    exact h.signal _ _
  · exact h.step_work hstep
  · exact h.step_work hstep
  · exact h.step_work hstep
  · exact h.step_work hstep
  · exact h.step_work hstep
  · exact h.step_work hstep
  · exact h.step_fill hstep
  · exact h.step_fill hstep
  · exact h.step_shutDown hstep
  · exact h.step_shutDown hstep
  · exact h.step_shutDown hstep
  · exact h.step_shutDown hstep
  · exact h.step_shutDown hstep
  all_goals
    obtain ⟨hphase, hstep⟩ := serve_of_step hstep
    exact h.step_serve hphase hstep

end Invariant

theorem Reached.invariant [ChoiceSource G] {initial : MonteCarlo.Search G} {source : G}
    (h : Reached c initial source s l) : Invariant c s l := by
  induction h with
  | start stopSigns stopHeld => exact .start c initial source stopSigns stopHeld
  | step _ hstep ih => exact ih.step hstep

end Coordinator
end HexGame
