import HexGame.Proofs.Negamax.Failure

/-!
# The rounds that count

A search is made of the rounds that it completes (`deepen_eq_ok`). With a deadline these are the first ones of
those without it, as far as their checks pass (`completed_timed`), so a round that is interrupted leaves nothing
behind. An error that a search returns is one of a round that it has begun (`deepen_eq_error_iff`).
-/
namespace HexGame
namespace Negamax

variable {V : Type} [GameValue V] {s s' : Setting V} {b : Board} {depth depth' checks checks' : Nat}
variable {depths : List Nat} {o o' : Outcome V} {e : Interruption}

/-- There is a move, and a deeper look could still change the value. -/
def Round.goesOn (r : Round V) : Bool := r.best.isSome && !GameValue.isDecisive r.value

/-- The rounds that are begun, each with the table that the one before it has left. -/
inductive Begins (b : Board) : Setting V → List Nat → Nat → Setting V → Nat → Nat → Prop where
  | first (s : Setting V) (depth : Nat) (depths : List Nat) (checks : Nat) :
      Begins b s (depth :: depths) checks s depth checks
  | next {s s' : Setting V} {depth depth' checks checks' : Nat} {depths : List Nat} {r : Round V}
      (hround : round s b depth checks = .ok r) (hon : r.goesOn = true)
      (h : Begins b { s with previous := some r.table } depths r.checks s' depth' checks') :
      Begins b s (depth :: depths) checks s' depth' checks'

/-- A completed round adds its nodes, and puts its result in the place of the earlier one if it has a move. -/
def Outcome.add (o : Outcome V) (r : Nat × Round V) : Outcome V :=
  match r.2.best with
  | none => { o with nodes := o.nodes + r.2.nodes }
  | some mv => ⟨some mv, r.2.value, r.1, o.nodes + r.2.nodes, r.2.tree⟩

section

variable {r : Round V}

theorem deepen_of_next (h : round s b depth checks = .ok r) (hon : r.goesOn = true) :
    deepen s b (depth :: depths) checks o =
      deepen { s with previous := some r.table } b depths r.checks (o.add (depth, r)) := by
  cases hbest : r.best <;> simp [Round.goesOn, hbest] at hon
  simp [deepen, h, Outcome.add, hbest, hon]

theorem deepen_of_last (h : round s b depth checks = .ok r) (hon : r.goesOn = false) :
    deepen s b (depth :: depths) checks o = .ok (o.add (depth, r)) := by
  cases hbest : r.best <;> simp [Round.goesOn, hbest] at hon <;> simp [deepen, h, Outcome.add, hbest]
  simp [hon]

theorem deepen_of_cancelled (h : round s b depth checks = .error (.error .cancelled)) :
    deepen s b (depth :: depths) checks o = .ok o := by
  simp [deepen, h]

theorem deepen_of_error (he : e ≠ .error .cancelled) (h : round s b depth checks = .error e) :
    deepen s b (depth :: depths) checks o = .error e := by
  rw [deepen, h]
  split
  · rename_i heq
    exact absurd (Except.error.inj heq) he
  · rename_i heq
    rw [Except.error.inj heq]
  · rename_i heq
    cases heq

end

theorem begins_cons : Begins b s (depth :: depths) checks s' depth' checks' ↔
    (s' = s ∧ depth' = depth ∧ checks' = checks) ∨ ∃ r, round s b depth checks = .ok r ∧ r.goesOn = true ∧
      Begins b { s with previous := some r.table } depths r.checks s' depth' checks' := by
  constructor
  · intro h
    cases h with
    | first => exact .inl ⟨rfl, rfl, rfl⟩
    | next hround hon h => exact .inr ⟨_, hround, hon, h⟩
  · rintro (⟨rfl, rfl, rfl⟩ | ⟨r, hround, hon, h⟩)
    · exact .first _ _ _ _
    · exact .next hround hon h

theorem Begins.evaluate (h : Begins b s depths checks s' depth' checks') : s'.evaluate = s.evaluate := by
  induction h with
  | first => rfl
  | next _ _ _ ih => exact ih

theorem deepen_eq_error_iff : deepen s b depths checks o = .error e ↔
    e ≠ .error .cancelled ∧ ∃ s' depth checks', Begins b s depths checks s' depth checks' ∧
      round s' b depth checks' = .error e := by
  induction depths generalizing s checks o with
  | nil => exact ⟨nofun, fun ⟨_, _, _, _, h, _⟩ => nomatch h⟩
  | cons depth depths ih =>
    cases hround : round s b depth checks with
    | error e' =>
      have hbegins : (∃ s' depth' checks', Begins b s (depth :: depths) checks s' depth' checks' ∧
          round s' b depth' checks' = .error e) ↔ e' = e := by
        simp only [begins_cons, hround]
        constructor
        · rintro ⟨s', depth', checks', ⟨rfl, rfl, rfl⟩ | ⟨r, hr, -⟩, h⟩
          · exact Except.error.inj (hround.symm.trans h)
          · cases hr
        · rintro rfl
          exact ⟨_, _, _, .inl ⟨rfl, rfl, rfl⟩, hround⟩
      rw [hbegins]
      by_cases he : e' = .error .cancelled
      · rw [deepen_of_cancelled (he ▸ hround)]
        exact ⟨nofun, fun ⟨hne, heq⟩ => absurd (heq ▸ he) hne⟩
      · rw [deepen_of_error he hround]
        exact ⟨fun h => Except.error.inj h ▸ ⟨he, rfl⟩, fun ⟨_, heq⟩ => heq ▸ rfl⟩
    | ok r =>
      -- the first round has not failed, so it is one of the next rounds if there are any
      have hbegins : (∃ s' depth' checks', Begins b s (depth :: depths) checks s' depth' checks' ∧
          round s' b depth' checks' = .error e) ↔ r.goesOn = true ∧ ∃ s' depth' checks',
            Begins b { s with previous := some r.table } depths r.checks s' depth' checks' ∧
              round s' b depth' checks' = .error e := by
        simp only [begins_cons, hround]
        constructor
        · rintro ⟨s', depth', checks', ⟨rfl, rfl, rfl⟩ | ⟨r', hr, hon, h⟩, hfail⟩
          · cases hround.symm.trans hfail
          · obtain rfl := Except.ok.inj hr
            exact ⟨hon, s', depth', checks', h, hfail⟩
        · rintro ⟨hon, s', depth', checks', h, hfail⟩
          exact ⟨s', depth', checks', .inr ⟨r, rfl, hon, h⟩, hfail⟩
      rw [hbegins]
      cases hon : r.goesOn with
      | true => simp [deepen_of_next hround hon, ih]
      | false => simp [deepen_of_last hround hon]

theorem best_of_visit {n : Nat} {alpha beta : V} {p p' : Progress V} {r : Scored V}
    (h : visit s n b alpha beta p = .ok (r, p')) : ∀ mv ∈ r.best, mv ∈ b.legalMoves := by
  cases visited_of_visit h with
  | table | decided | depthLimit => nofun
  | searched _ hmoves hrun =>
    obtain ⟨tried, hfirst, hbest⟩ := explore_induct (I := fun tried c _ => ∀ best ∈ c.best, best.1 ∈ tried)
      (fun tried mv _ c p child p' alpha cut hc _ best hbest => by
        simp only [Scan.add] at hbest
        split at hbest
        · simp [← Option.some.inj hbest]
        · rename_i hc'
          split at hbest
          · simp [← Option.some.inj hbest]
          · exact List.mem_append_left _ (hc best (hc' ▸ hbest)))
      (by simp) hrun
    intro mv hmv
    obtain ⟨best, hc, rfl⟩ := Option.map_eq_some_iff.mp hmv
    exact (perm_of_orderedMoves hmoves).mem_iff.mp (hfirst.subset (hbest best hc))

theorem best_of_round {r : Round V} (h : round s b depth checks = .ok r) : ∀ mv ∈ r.best, mv ∈ b.legalMoves := by
  obtain ⟨⟨result, p⟩, hvisit, hr⟩ := bind_eq_ok.mp h
  exact Except.ok.inj hr ▸ best_of_visit hvisit

omit [GameValue V] in
theorem Outcome.best_add (o : Outcome V) (r : Nat × Round V) : (o.add r).best = r.2.best.or o.best := by
  cases hbest : r.2.best <;> simp [Outcome.add, hbest]

theorem best_of_deepen (h : deepen s b depths checks o = .ok o') (ho : ∀ mv ∈ o.best, mv ∈ b.legalMoves) :
    ∀ mv ∈ o'.best, mv ∈ b.legalMoves := by
  induction depths generalizing s checks o with
  | nil => exact Except.ok.inj h ▸ ho
  | cons depth depths ih =>
    cases hround : round s b depth checks with
    | error e =>
      by_cases he : e = .error .cancelled
      · exact Except.ok.inj ((deepen_of_cancelled (he ▸ hround)).symm.trans h) ▸ ho
      · cases (deepen_of_error he hround).symm.trans h
    | ok r =>
      have hadd : ∀ mv ∈ (o.add (depth, r)).best, mv ∈ b.legalMoves := by
        intro mv hmv
        rw [Outcome.best_add] at hmv
        rcases Option.or_eq_some_iff.mp hmv with hmv | ⟨-, hmv⟩
        · exact best_of_round hround mv hmv
        · exact ho mv hmv
      cases hon : r.goesOn with
      | true => exact ih ((deepen_of_next hround hon).symm.trans h) hadd
      | false => exact Except.ok.inj ((deepen_of_last hround hon).symm.trans h) ▸ hadd

end Negamax
end HexGame
