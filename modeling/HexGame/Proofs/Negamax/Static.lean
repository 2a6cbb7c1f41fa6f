import HexGame.Negamax.Static
import HexGame.Proofs.Negamax.FloatRank
import HexGame.Proofs.Negamax.Search
import HexGame.Proofs.Sorting.Sort

/-!
# The search by static scores

What the search with a window needs is met by floating point numbers, as long as no score and no value of
the earlier table is NaN: the earlier table only reorders the moves (`perm_of_orderedMoves`), and the static score
depends on no more than the key of a position.
-/
namespace HexGame
namespace Negamax

variable {V : Type} [GameValue V] {R : Ranking V}

theorem isNumber_earlierValue {table : Table V}
    (h : ∀ (k : BoardKey) entry, table[k]? = some entry → R.IsNumber entry.value) (b : Board) (mv : Move) :
    R.IsNumber (earlierValue table b mv) := by
  unfold earlierValue
  split
  · rename_i entry hentry
    exact h _ entry hentry
  · exact R.even

theorem perm_of_orderedMoves {s : Setting V} {b : Board} {moves : List Move} (h : s.orderedMoves b = .ok moves) :
    moves.Perm b.legalMoves := by
  unfold Setting.orderedMoves at h
  split at h
  · exact Except.ok.inj h ▸ .refl _
  · dsimp only at h
    split at h
    · rename_i hsorted
      obtain rfl := Except.ok.inj h
      refine ((Sorting.perm_of_sort hsorted).map (·.2)).trans ?_
      simp [Function.comp_def]
    · cases h

theorem ordersMoves {s : Setting V} (h : ∀ table ∈ s.previous, ∀ (k : BoardKey) entry,
    table[k]? = some entry → R.IsNumber entry.value) : OrdersMoves s := by
  intro b
  suffices hmoves : ∃ moves, s.orderedMoves b = .ok moves by
    obtain ⟨moves, hmoves⟩ := hmoves
    exact ⟨moves, hmoves, perm_of_orderedMoves hmoves⟩
  unfold Setting.orderedMoves
  cases hprevious : s.previous with
  | none => exact ⟨b.legalMoves, rfl⟩
  | some table =>
    have hlt : Sorting.ComparesBy (fun x y : V × Move => GameValue.lt x.1 y.1)
        (fun x => R.IsNumber x.1) (fun x => R.rank x.1) := fun _ _ hx hy => R.lt_iff hx hy
    have hnumbers : ∀ x ∈ b.legalMoves.map fun mv => (earlierValue table b mv, mv), R.IsNumber x.1 := by
      intro x hx
      obtain ⟨mv, -, rfl⟩ := List.mem_map.mp hx
      exact isNumber_earlierValue (h table hprevious) b mv
    obtain ⟨sorted, hsorted⟩ := Sorting.exists_sort hlt hnumbers
    exact ⟨sorted.map (·.2), by simp only [hsorted]⟩

end Negamax

namespace Evaluator

/-- The static score as a value, where there is one. -/
def scoreOf (e : Evaluator) (weights : ScoreWeights) (b : Board) : Float :=
  (e.staticScore weights b).toOption.getD GameValue.even

theorem scoreOf_eq_of_key (e : Evaluator) (weights : ScoreWeights) {b b' : Board} (h : b.key = b'.key) :
    e.scoreOf weights b = e.scoreOf weights b' :=
  Board.eq_of_key (e.scoreOf weights) (fun _ _ => rfl) h

end Evaluator

namespace Negamax

theorem legalMoves_eq_nil_iff {b : Board} : b.legalMoves = [] ↔ ∀ c, b.isEmptyAt c = false := by
  simp only [Board.legalMoves_eq, List.map_eq_nil_iff, List.filter_eq_nil_iff, Bool.not_eq_true,
    Board.mem_cells]
  refine ⟨fun h c => ?_, fun h c _ => h c⟩
  cases hc : b.isEmptyAt c with
  | false => rfl
  | true => exact hc.symm.trans (h c (Board.isEmptyAt_iff.mp hc).1)

/-- The search to a fixed depth finds the plain value, whatever table orders its moves, and a move that
leads to it unless the game is over or nothing is left to look at. -/
theorem searchDepth_eq_plainValue (e : Evaluator) (weights : ScoreWeights) (b : Board) (depth : Nat)
    (previous : Option (Table Float))
    (hscores : ∀ b', Ahead b depth b' → b'.isDecided .strict = false →
      ∃ v, e.staticScore weights b' = .ok v ∧ v.isNaN = false)
    (hprevious : ∀ table ∈ previous, ∀ (k : BoardKey) entry, table[k]? = some entry →
      entry.value.isNaN = false) :
    ∃ r, searchDepth (e.staticScore weights) b depth previous = .ok r ∧
      (r.value == plainValue (e.scoreOf weights) depth b) = true ∧
      (r.best = none ↔ b.isDecided .strict = true ∨ depth = 0 ∨ ∀ c, b.isEmptyAt c = false) ∧
      ∀ mv, r.best = some mv → mv ∈ b.legalMoves ∧
        (plainValue (e.scoreOf weights) (depth - 1) (b.place mv) == -r.value) = true := by
  have hs : Scores floatRanking (e.staticScore weights) (e.scoreOf weights) b depth := by
    refine ⟨fun _ _ => e.scoreOf_eq_of_key weights, fun b' hb' hopen => ?_⟩
    obtain ⟨v, hv, hnumber⟩ := hscores b' hb' hopen
    have hscore : e.scoreOf weights b' = v := by
      simp only [Evaluator.scoreOf, hv, Except.toOption, Option.getD_some]
    rw [hscore]
    exact ⟨hv, hnumber⟩
  have horders : OrdersMoves ⟨e.staticScore weights, previous, .never, false⟩ :=
    ordersMoves (R := floatRanking) hprevious
  obtain ⟨r, p, hvisit, hr, hrank, hnone, hbest⟩ := visit_root hs rfl horders
  rw [legalMoves_eq_nil_iff] at hnone
  refine ⟨_, searchDepth_eq hvisit, ?_, hnone, fun mv hmv => ?_⟩
  · exact (FloatRank.beq_iff hr (hs.isNumber .root (Nat.zero_add depth))).mpr hrank
  · obtain ⟨hlegal, hchild⟩ := hbest mv hmv
    have hopen : ¬ (b.isDecided .strict = true ∨ depth = 0 ∨ ∀ c, b.isEmptyAt c = false) := fun h => by
      simp [hnone.mpr h] at hmv
    simp only [not_or, Bool.not_eq_true] at hopen
    have hnumber := hs.isNumber (Ahead.root.move hopen.1 hlegal) (n := depth - 1) (by omega)
    refine ⟨hlegal, (FloatRank.beq_iff hnumber (floatRanking.neg hr)).mpr ?_⟩
    exact hchild.trans (floatRanking.rank_neg hr).symm

/-- An empty board with four cells, and an earlier table with a value for one of its moves. -/
def fourCells : Board := Board.blank 2 .red two_le_maxSize

def earlierTable : Table Float :=
  (∅ : Table Float).insert (fourCells.place ⟨⟨1, 0⟩, .red⟩).key ⟨GameValue.lost, .upper⟩

def patternless : Evaluator := .start ⟨[]⟩

theorem searchDepth_fourCells :
    ∃ r mv, searchDepth (patternless.staticScore (.forPatterns 0)) fourCells 1 (some earlierTable) = .ok r ∧
      (r.value == plainValue (patternless.scoreOf (.forPatterns 0)) 1 fourCells) = true ∧
      r.best = some mv ∧ mv ∈ fourCells.legalMoves := by
  have hscores : (fourCells.legalMoves.all fun mv =>
      match patternless.staticScore (.forPatterns 0) (fourCells.place mv) with
      | .ok v => !v.isNaN
      | .error _ => false) = true := by decide +kernel
  obtain ⟨r, hr, hvalue, hnone, hbest⟩ := searchDepth_eq_plainValue patternless (.forPatterns 0) fourCells 1
    (some earlierTable)
    (fun b' hb' _ => by
      cases hb' with
      | move hb _ hmv =>
        cases hb
        have := List.all_eq_true.mp hscores _ hmv
        split at this
        · rename_i v hv
          exact ⟨v, hv, by simpa using this⟩
        · simp at this)
    (fun table htable k entry hentry => by
      obtain rfl := Option.some.inj htable
      unfold earlierTable at hentry
      rw [Std.HashMap.getElem?_insert] at hentry
      split at hentry
      · obtain rfl := Option.some.inj hentry
        exact floatRanking.lost
      · simp at hentry)
  cases hmv : r.best with
  | none =>
    exact absurd (hnone.mp hmv) (by
      simp only [not_or, Classical.not_forall]
      exact ⟨by decide +kernel, by decide, ⟨0, 0⟩, by decide +kernel⟩)
  | some mv => exact ⟨r, mv, hr, hvalue, hmv, (hbest mv hmv).1⟩

end Negamax
end HexGame
