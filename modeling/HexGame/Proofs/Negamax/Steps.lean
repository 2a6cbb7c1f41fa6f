import HexGame.Negamax.Round
import HexGame.Proofs.Board.Line

/-!
# What a visit does

The ways in which a visit can come to its end: the table answers, the game is over, the plies run out, or moves
are tried (`Visited`). A property of the moves tried so far that each of them keeps is one of all of them
(`explore_induct`).
-/
namespace HexGame
namespace Negamax

variable {V : Type} [GameValue V] {s : Setting V} {b : Board} {alpha beta : V} {p p' : Progress V}

theorem mapError_eq_ok {ε ε' α : Type} {x : Except ε α} {f : ε → ε'} {a : α} :
    x.mapError f = .ok a ↔ x = .ok a := by
  cases x with
  | error e => exact ⟨nofun, nofun⟩
  | ok a' => exact ⟨fun h => congrArg _ (Except.ok.inj h), fun h => congrArg _ (Except.ok.inj h)⟩

omit [GameValue V] in
theorem check_eq_ok {d : Deadline} (h : p.check d = .ok p') : p' = { p with checks := p.checks + 1 } := by
  unfold Progress.check at h
  split at h
  · cases h
  · exact (Except.ok.inj h).symm

theorem value_of_answer {table : Table V} {k : BoardKey} {value : V}
    (h : table.probe k alpha beta = .answer value) : ∃ entry, table[k]? = some entry ∧ entry.value = value := by
  unfold Table.probe at h
  split at h
  · cases h
  · rename_i hentry
    exact ⟨_, hentry, Probe.answer.inj h⟩
  all_goals
    rename_i hentry
    dsimp only at h
    split at h
    · exact ⟨_, hentry, Probe.answer.inj h⟩
    · cases h

/-- The progress of a round that enters one more position. -/
def Progress.entered (p : Progress V) : Progress V := { p with checks := p.checks + 1, nodes := p.nodes + 1 }

/-- On entry the table answers, the game is over, or the position is opened. -/
inductive Entered (s : Setting V) (b : Board) (alpha beta : V) (p : Progress V) : Entry V → Prop where
  | table {value : V} (hprobe : p.table.probe b.key alpha beta = .answer value) :
      Entered s b alpha beta p (.closed (s.leaf b value .table) p.entered)
  | decided (hdecided : b.isDecided .strict = true) :
      Entered s b alpha beta p
        (.closed (s.leaf b GameValue.lost .decided) (p.entered.store b.key GameValue.lost .exact))
  | opened {alpha' beta' : V} (hopen : b.isDecided .strict = false) :
      Entered s b alpha beta p (.opened alpha' beta' p.entered)

theorem entered_of_enter {entry : Entry V} (h : enter s b alpha beta p = .ok entry) :
    Entered s b alpha beta p entry := by
  obtain ⟨q, hcheck, h⟩ := bind_eq_ok.mp h
  obtain rfl := check_eq_ok hcheck
  dsimp only at h
  split at h
  · rename_i hprobe
    exact Except.ok.inj h ▸ .table hprobe
  · split at h
    · rename_i hdecided
      exact Except.ok.inj h ▸ .decided hdecided
    · rename_i hopen
      exact Except.ok.inj h ▸ .opened (Bool.not_eq_true _ ▸ hopen)

theorem opened_of_enter {alpha' beta' : V} (h : enter s b alpha beta p = .ok (.opened alpha' beta' p')) :
    b.isDecided .strict = false ∧ p'.table = p.table := by
  cases entered_of_enter h with
  | opened hopen => exact ⟨hopen, rfl⟩

/-- The ways in which a visit comes to its end. -/
inductive Visited (s : Setting V) (b : Board) (alpha beta : V) (p : Progress V) :
    Nat → Scored V → Progress V → Prop where
  | table {n : Nat} {value : V} (hprobe : p.table.probe b.key alpha beta = .answer value) :
      Visited s b alpha beta p n (s.leaf b value .table) p.entered
  | decided {n : Nat} (hdecided : b.isDecided .strict = true) :
      Visited s b alpha beta p n (s.leaf b GameValue.lost .decided)
        (p.entered.store b.key GameValue.lost .exact)
  | depthLimit {value : V} (hopen : b.isDecided .strict = false) (hvalue : s.evaluate b = .ok value) :
      Visited s b alpha beta p 0 (s.leaf b value .depthLimit) (p.entered.store b.key value .exact)
  | searched {n : Nat} {alpha' beta' : V} {moves : List Move} {c : Scan V} {q : Progress V}
      (hopen : b.isDecided .strict = false) (hmoves : s.orderedMoves b = .ok moves)
      (hrun : explore (visit s n) s b beta' moves ⟨alpha', none, [], false⟩ p.entered = .ok (c, q)) :
      Visited s b alpha beta p (n + 1) ⟨c.value, c.best.map (·.1), if s.wantTree then
          some (.node ⟨b.lastMove, c.value, if c.cut then .pruned else .searched⟩ c.children.reverse)
        else none⟩ (q.store b.key c.value (c.bound alpha' beta'))

theorem visited_of_visit {n : Nat} {r : Scored V} (h : visit s n b alpha beta p = .ok (r, p')) :
    Visited s b alpha beta p n r p' := by
  cases n with
  | zero =>
    obtain ⟨entry, henter, h⟩ := bind_eq_ok.mp h
    cases entered_of_enter henter with
    | table hprobe =>
      obtain ⟨rfl, rfl⟩ := Prod.mk.inj (Except.ok.inj h)
      exact .table hprobe
    | decided hdecided =>
      obtain ⟨rfl, rfl⟩ := Prod.mk.inj (Except.ok.inj h)
      exact .decided hdecided
    | opened hopen =>
      obtain ⟨value, hvalue, h⟩ := bind_eq_ok.mp h
      obtain ⟨rfl, rfl⟩ := Prod.mk.inj (Except.ok.inj h)
      exact .depthLimit hopen (mapError_eq_ok.mp hvalue)
  | succ n =>
    obtain ⟨entry, henter, h⟩ := bind_eq_ok.mp h
    cases entered_of_enter henter with
    | table hprobe =>
      obtain ⟨rfl, rfl⟩ := Prod.mk.inj (Except.ok.inj h)
      exact .table hprobe
    | decided hdecided =>
      obtain ⟨rfl, rfl⟩ := Prod.mk.inj (Except.ok.inj h)
      exact .decided hdecided
    | opened hopen =>
      obtain ⟨moves, hmoves, h⟩ := bind_eq_ok.mp h
      obtain ⟨⟨c, q⟩, hrun, h⟩ := bind_eq_ok.mp h
      obtain ⟨rfl, rfl⟩ := Prod.mk.inj (Except.ok.inj h)
      exact .searched hopen hmoves hrun

section

variable {recurse : Board → V → V → Progress V → Except Interruption (Scored V × Progress V)}

/-- A move that is tried closes the window, or the scan goes on with the moves after it. -/
theorem explore_tried {mv : Move} {c : Scan V} {q q' : Progress V} {child : Scored V}
    (hcheck : p.check s.deadline = .ok q) (hchild : recurse (b.place mv) (-beta) (-c.alpha) q = .ok (child, q')) :
    ∃ c' : Scan V, (∃ alpha cut, c' = { c.add mv (-child.value) child.node with alpha := alpha, cut := cut }) ∧
      ((c'.cut = true ∧ ∀ moves, explore recurse s b beta (mv :: moves) c p = .ok (c', q')) ∨
        (c'.cut = c.cut ∧
          ∀ moves, explore recurse s b beta (mv :: moves) c p = explore recurse s b beta moves c' q')) := by
  simp only [explore, hcheck, hchild, bind, Except.bind]
  split
  · split
    · exact ⟨_, ⟨_, _, rfl⟩, .inl ⟨rfl, fun _ => rfl⟩⟩
    · exact ⟨_, ⟨_, _, rfl⟩, .inr ⟨rfl, fun _ => rfl⟩⟩
  · exact ⟨_, ⟨_, _, rfl⟩, .inr ⟨rfl, fun _ => rfl⟩⟩

/-- The moves that are tried are the first ones, and what each of them keeps they all keep. Neither the window nor
the end of the scan matters for it. -/
theorem explore_induct {I : List Move → Scan V → Progress V → Prop} {moves : List Move} {c c' : Scan V}
    (step : ∀ tried, ∀ mv ∈ moves, ∀ c p child p' alpha cut, I tried c p →
      recurse (b.place mv) (-beta) (-c.alpha) { p with checks := p.checks + 1 } = .ok (child, p') →
      I (tried ++ [mv]) { c.add mv (-child.value) child.node with alpha := alpha, cut := cut } p')
    (start : I [] c p) (h : explore recurse s b beta moves c p = .ok (c', p')) :
    ∃ tried, tried <+: moves ∧ I tried c' p' := by
  induction moves generalizing I c p with
  | nil =>
    obtain ⟨rfl, rfl⟩ := Prod.mk.inj (Except.ok.inj h)
    exact ⟨[], List.nil_prefix, start⟩
  | cons mv moves ih =>
    obtain ⟨q, hcheck, h'⟩ := bind_eq_ok.mp h
    obtain ⟨⟨child, q'⟩, hchild, -⟩ := bind_eq_ok.mp h'
    obtain ⟨c₁, ⟨alpha, cut, rfl⟩, hnext⟩ := explore_tried hcheck hchild
    obtain rfl := check_eq_ok hcheck
    have hadd := step [] mv List.mem_cons_self c p child q' alpha cut start hchild
    rcases hnext with ⟨-, hrun⟩ | ⟨-, hrun⟩
    · obtain ⟨rfl, rfl⟩ := Prod.mk.inj (Except.ok.inj ((hrun moves).symm.trans h))
      exact ⟨[mv], List.cons_prefix_cons.mpr ⟨rfl, List.nil_prefix⟩, hadd⟩
    · obtain ⟨tried, hfirst, hI⟩ := ih (I := fun tried => I (mv :: tried))
        (fun tried m hm => step (mv :: tried) m (List.mem_cons_of_mem mv hm)) hadd ((hrun moves).symm.trans h)
      exact ⟨mv :: tried, List.cons_prefix_cons.mpr ⟨rfl, hfirst⟩, hI⟩

end

end Negamax
end HexGame
