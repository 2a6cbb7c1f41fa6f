import HexGame.Proofs.Board.Line
import HexGame.Proofs.Negamax.Interruption
import HexGame.Proofs.Negamax.Static
import HexGame.Proofs.Negamax.Steps

/-!
# The calls of a round

A round is a tree of calls (`CallIn`). Each of them starts with a proper window and a sound table, whatever
calls were made before it (`CallIn.proper`), and so the bounds that are stored are right at every moment.
Entries are stored for positions of the search only (`Stored`), so that an entry says something of each
position with its key, no matter by which moves it came about.
-/
namespace HexGame
namespace Negamax

variable {V : Type} [GameValue V] {R : Ranking V} {score : Board → V} {s : Setting V}
variable {b b₀ : Board} {depth j n : Nat} {p p' : Progress V} {alpha beta : V}
variable {recurse : Board → V → V → Progress V → Except Interruption (Scored V × Progress V)}

/-! ## Positions of the table -/

/-- The entries of a table are those of positions at most `depth` plies ahead. -/
def Stored (b₀ : Board) (depth : Nat) (table : Table V) : Prop :=
  ∀ (k : BoardKey) (e : TableEntry V), table[k]? = some e → ∃ j b, Ahead b₀ j b ∧ j ≤ depth ∧ b.key = k

namespace Stored

omit [GameValue V] in
theorem empty : Stored b₀ depth (∅ : Table V) := by
  intro k e he
  simp at he

omit [GameValue V] in
theorem store (h : Stored b₀ depth p.table) (hb : Ahead b₀ j b) (hj : j ≤ depth) (value : V)
    (bound : Bound) : Stored b₀ depth (p.store b.key value bound).table := by
  intro k e he
  rcases Table.entry_of_insert he with ⟨hkey, -⟩ | he
  · exact ⟨j, b, hb, hj, hkey⟩
  · exact h k e he

/-- A visit of a position stores it after the positions that follow it. -/
def Keeps (b₀ : Board) (depth j : Nat)
    (recurse : Board → V → V → Progress V → Except Interruption (Scored V × Progress V)) : Prop :=
  ∀ b alpha beta p r p', Ahead b₀ j b → Stored b₀ depth p.table →
    recurse b alpha beta p = .ok (r, p') → Stored b₀ depth p'.table

theorem explore (hrec : Keeps b₀ depth (j + 1) recurse) (hb : Ahead b₀ j b)
    (hopen : b.isDecided .strict = false) {moves : List Move} (hmoves : ∀ mv ∈ moves, mv ∈ b.legalMoves)
    {c c' : Scan V} (hp : Stored b₀ depth p.table)
    (h : explore recurse s b beta moves c p = .ok (c', p')) : Stored b₀ depth p'.table := by
  have hstep {mv : Move} (hmv : mv ∈ moves) {alpha : V} {p p' : Progress V} {child : Scored V}
      (hp : Stored b₀ depth p.table)
      (hchild : recurse (b.place mv) (-beta) (-alpha) { p with checks := p.checks + 1 } = .ok (child, p')) :
      Stored b₀ depth p'.table :=
    hrec _ _ _ { p with checks := p.checks + 1 } _ _ (hb.move hopen (hmoves mv hmv)) hp hchild
  obtain ⟨-, -, hp'⟩ := explore_induct (I := fun _ _ p => Stored b₀ depth p.table)
    (fun _ mv hmv _ _ _ _ _ _ hp hchild => hstep hmv hp hchild) hp h
  exact hp'

theorem visit (hn : j + n = depth) : Keeps b₀ depth j (visit s n) := by
  induction n generalizing j with
  | zero =>
    intro b alpha beta p r p' hb hp h
    cases visited_of_visit h with
    | table => exact hp
    | decided => exact store hp hb (by omega) _ _
    | depthLimit => exact store hp hb (by omega) _ _
  | succ n ih =>
    intro b alpha beta p r p' hb hp h
    cases visited_of_visit h with
    | table => exact hp
    | decided => exact store hp hb (by omega) _ _
    | searched hopen hmoves hrun =>
      have hlegal := fun mv => (perm_of_orderedMoves hmoves).mem_iff (a := mv) |>.mp
      exact store (explore (p := p.entered) (ih (by omega)) hb hopen hlegal hp hrun) hb (by omega) _ _

end Stored

/-! ## Calls -/

structure Call (V : Type) where
  plies : Nat
  board : Board
  alpha : V
  beta : V
  progress : Progress V

def Call.run (s : Setting V) (c : Call V) : Except Interruption (Scored V × Progress V) :=
  visit s c.plies c.board c.alpha c.beta c.progress

/-- The calls that a round makes: the one for its board, and from a call that opens its position one for
each move that is tried, after the moves before it and as long as none of them has closed the window. -/
inductive CallIn (s : Setting V) (b₀ : Board) (depth : Nat) : Call V → Prop where
  | root (checks : Nat) : CallIn s b₀ depth ⟨depth, b₀, GameValue.lost, GameValue.won, ⟨∅, 0, checks⟩⟩
  | move {n : Nat} {b : Board} {alpha beta alpha' beta' : V} {p q p' p'' : Progress V}
      {before after : List Move} {mv : Move} {c : Scan V}
      (h : CallIn s b₀ depth ⟨n + 1, b, alpha, beta, p⟩)
      (henter : enter s b alpha beta p = .ok (.opened alpha' beta' q))
      (hmoves : s.orderedMoves b = .ok (before ++ mv :: after))
      (hbefore : explore (visit s n) s b beta' before ⟨alpha', none, [], false⟩ q = .ok (c, p'))
      (hcut : c.cut = false) (hcheck : p'.check s.deadline = .ok p'') :
      CallIn s b₀ depth ⟨n, b.place mv, -beta', -c.alpha, p''⟩

namespace CallIn

variable {c : Call V}

/-- A call looks at a position of the search with the plies that are left there. -/
theorem ahead (h : CallIn s b₀ depth c) : ∃ j, Ahead b₀ j c.board ∧ j + c.plies = depth := by
  induction h with
  | root checks => exact ⟨0, .root, Nat.zero_add depth⟩
  | @move n b _ _ _ _ _ _ _ _ before after mv _ _ henter hmoves _ _ _ ih =>
    obtain ⟨j, hb, hn⟩ := ih
    have hmv : mv ∈ b.legalMoves := (perm_of_orderedMoves hmoves).mem_iff.mp (by simp)
    dsimp only at hn
    exact ⟨j + 1, hb.move (opened_of_enter henter).1 hmv, by dsimp only; omega⟩

theorem stored (h : CallIn s b₀ depth c) : Stored b₀ depth c.progress.table := by
  induction h with
  | root checks => exact Stored.empty
  | @move _ _ _ _ _ _ _ q p' _ _ _ _ _ hparent henter hmoves hbefore _ hcheck ih =>
    obtain ⟨j, hb, hn⟩ := hparent.ahead
    obtain ⟨hopen, htable⟩ := opened_of_enter henter
    dsimp only at hb hn ih ⊢
    have hlegal := fun mv hmv => (perm_of_orderedMoves hmoves).mem_iff (a := mv) |>.mp (List.mem_append_left _ hmv)
    have hbefore' : Stored b₀ depth p'.table :=
      Stored.explore (Stored.visit (by omega)) hb hopen hlegal (htable ▸ ih) hbefore
    exact check_eq_ok hcheck ▸ hbefore'

end CallIn

/-- What a call may rely on: its position is one of the search, its window is open, and the table is sound. -/
structure Call.Proper (R : Ranking V) (score : Board → V) (b₀ : Board) (depth : Nat) (c : Call V) : Prop where
  ahead : ∃ j, Ahead b₀ j c.board ∧ j + c.plies = depth
  alpha : R.IsNumber c.alpha
  beta : R.IsNumber c.beta
  lt : R.rank c.alpha < R.rank c.beta
  sound : Sound R score b₀ depth c.progress.table
  stored : Stored b₀ depth c.progress.table

/-- A deadline takes calls away, but it changes none of them. -/
theorem CallIn.untimed {c : Call V} (h : CallIn s b₀ depth c) : CallIn s.untimed b₀ depth c := by
  induction h with
  | root checks => exact .root checks
  | move _ henter hmoves hbefore hcut hcheck ih =>
    exact .move ih ((UnderDeadline.enter s _ _ _ _).eq_ok henter) hmoves
      ((UnderDeadline.explore s (UnderDeadline.visit s _) _ _ _ _ _).eq_ok hbefore) hcut
      ((UnderDeadline.check _ s.deadline).eq_ok hcheck)

theorem le_alpha_of_uncut {moves : List Move} {c c' : Scan V}
    (h : explore recurse s b beta moves c p = .ok (c', p')) (hcut : c'.cut = false)
    (hc : GameValue.le beta c.alpha = false) : GameValue.le beta c'.alpha = false := by
  induction moves generalizing c p with
  | nil =>
    obtain ⟨rfl, -⟩ := Prod.mk.inj (Except.ok.inj h)
    exact hc
  | cons mv moves ih =>
    obtain ⟨q, -, h⟩ := bind_eq_ok.mp h
    obtain ⟨⟨child, q'⟩, -, h⟩ := bind_eq_ok.mp h
    dsimp only at h
    split at h
    · split at h
      · obtain ⟨rfl, -⟩ := Prod.mk.inj (Except.ok.inj h)
        cases hcut
      · rename_i hle
        exact ih h (Bool.not_eq_true _ ▸ hle)
    · exact ih h hc

theorem Call.Proper.opened {q : Progress V} {alpha' beta' : V}
    (h : Call.Proper R score b₀ depth ⟨n, b, alpha, beta, p⟩) (hnever : s.deadline = .never)
    (hs : Scores R s.evaluate score b₀ depth)
    (henter : enter s b alpha beta p = .ok (.opened alpha' beta' q)) :
    b.isDecided .strict = false ∧ R.IsNumber alpha' ∧ R.IsNumber beta' ∧ R.rank alpha' < R.rank beta' ∧
      Sound R score b₀ depth q.table := by
  obtain ⟨⟨j, hb, hn⟩, ha, hbeta, hlt, hp, -⟩ := h
  rcases enter_spec hs hnever hb hn ha hbeta hlt hp with
    ⟨r, p₁, h₁, -⟩ | ⟨alpha₁, beta₁, p₁, h₁, hopen, ha₁, hbeta₁, hlt₁, hp₁, -⟩
  · cases h₁.symm.trans henter
  · cases h₁.symm.trans henter
    exact ⟨hopen, ha₁, hbeta₁, hlt₁, hp₁⟩

theorem CallIn.proper {c : Call V} (h : CallIn s b₀ depth c) (hnever : s.deadline = .never)
    (hs : Scores R s.evaluate score b₀ depth) (horders : OrdersMoves s) : c.Proper R score b₀ depth := by
  induction h with
  | root checks =>
    exact ⟨⟨0, .root, Nat.zero_add depth⟩, R.lost, R.won, R.rank_lost_lt_won, Sound.empty, Stored.empty⟩
  | @move n b alpha beta alpha' beta' p q p' p'' before after mv c hparent henter hmoves hbefore hcut hcheck ih =>
    have hcall := CallIn.move hparent henter hmoves hbefore hcut hcheck
    obtain ⟨hopen, ha, hbeta, hlt, hq⟩ := ih.opened hnever hs henter
    obtain ⟨j, hb, hn⟩ := hparent.ahead
    dsimp only at hb hn
    have hn' : j + 1 + n = depth := by omega
    -- the moves that were tried before this one
    have hlegal : ∀ m ∈ before, m ∈ b.legalMoves :=
      fun m hm => (perm_of_orderedMoves hmoves).mem_iff.mp (by simp [hm])
    obtain ⟨c₁, q₁, done, hrun, hsound, hc, -⟩ := explore_spec (searches_visit hs hnever horders hn')
      hnever hb hopen hbeta hlegal (by simp) (Scanned.start ha) hlt hq
    obtain ⟨rfl, rfl⟩ := Prod.mk.inj (Except.ok.inj (hrun.symm.trans hbefore))
    have hrank : R.rank c₁.alpha < R.rank beta' := by
      have hle := le_alpha_of_uncut hbefore hcut (Bool.eq_false_iff.mpr fun hle => by
        have := (R.le_iff hbeta ha).mp hle
        omega)
      have hiff := R.le_iff hbeta hc.alpha
      simp only [hle, Bool.false_eq_true, false_iff, Int.not_le] at hiff
      exact hiff
    refine ⟨hcall.ahead, R.neg hbeta, R.neg hc.alpha, ?_, check_eq_ok hcheck ▸ hsound, hcall.stored⟩
    simp only [R.rank_neg hbeta, R.rank_neg hc.alpha]
    omega

end Negamax

/-! ## Bounds on floating point numbers -/

/-- What a bound says of a stored value and the true one. -/
def Bound.Relates : Bound → Float → Float → Prop
  | .exact, stored, value => (stored == value) = true
  | .lower, stored, value => stored ≤ value
  | .upper, stored, value => value ≤ stored

theorem Bound.relates_of_holds {bound : Bound} {v t : Float} (hv : v.isNaN = false) (ht : t.isNaN = false)
    (h : bound.Holds (floatRanking.rank v) (floatRanking.rank t)) : bound.Relates v t := by
  cases bound with
  | exact => exact (FloatRank.beq_iff hv ht).mpr h
  | lower => exact (FloatRank.le_iff hv ht).mpr h
  | upper => exact (FloatRank.le_iff ht hv).mpr h

namespace Negamax

/-- The entries of a table hold for every position that legal moves lead to, with the plies that are left. -/
def TableHolds (score : Board → Float) (b : Board) (depth : Nat) (table : Table Float) : Prop :=
  ∀ moves b' entry, b.playAll moves = .ok b' → table[b'.key]? = some entry → moves.length ≤ depth ∧
    entry.bound.Relates entry.value (plainValue score (depth - moves.length) b')

theorem Sound.tableHolds {evaluate : Board → Except Error Float} {score : Board → Float} {b : Board}
    {depth : Nat} {table : Table Float} (h : Sound floatRanking score b depth table)
    (hstored : Stored b depth table) (hs : Scores floatRanking evaluate score b depth) :
    TableHolds score b depth table := by
  intro moves b' entry hline hentry
  obtain ⟨j, a, ha, hj, hkey⟩ := hstored _ _ hentry
  -- the position that was stored lies as many plies ahead
  have hplies : j = moves.length := by
    have h₁ := ha.emptyCells_add
    have h₂ := Board.emptyCells_playAll hline
    rw [Board.emptyCells_eq_of_key hkey] at h₁
    omega
  subst hplies
  have hn : moves.length + (depth - moves.length) = depth := by omega
  have hholds := h.holds _ _ hentry _ _ a hn ha hkey
  have hnumber := hs.isNumber ha hn
  rw [plainValue_eq_of_key hs.same hkey] at hholds hnumber
  exact ⟨hj, Bound.relates_of_holds (h.isNumber _ _ hentry) hnumber hholds⟩

/-- What a call with a window owes: a value inside the window is the true one, a value below it bounds the
true one from above, and a value above it bounds the true one from below. -/
structure Call.Answers (score : Board → Float) (c : Call Float) (v : Float) : Prop where
  inside : c.alpha < v → v < c.beta → (v == plainValue score c.plies c.board) = true
  below : v ≤ c.alpha → plainValue score c.plies c.board ≤ v
  above : c.beta ≤ v → v ≤ plainValue score c.plies c.board

theorem Call.answers_of_fits {score : Board → Float} {c : Call Float} {v : Float} (hv : v.isNaN = false)
    (ha : c.alpha.isNaN = false) (hbeta : c.beta.isNaN = false) (hlt : c.alpha < c.beta)
    (ht : (plainValue score c.plies c.board).isNaN = false)
    (h : Fits (floatRanking.rank c.alpha) (floatRanking.rank c.beta) (floatRanking.rank v)
      (floatRanking.rank (plainValue score c.plies c.board))) : c.Answers score v := by
  have hwindow := (FloatRank.lt_iff ha hbeta).mp hlt
  have hupper := h.upper
  have hlower := h.lower
  simp only [floatRanking] at hupper hlower
  refine ⟨fun h₁ h₂ => ?_, fun h₁ => ?_, fun h₁ => ?_⟩
  · rw [FloatRank.lt_iff ha hv] at h₁
    rw [FloatRank.lt_iff hv hbeta] at h₂
    rw [FloatRank.beq_iff hv ht]
    omega
  · rw [FloatRank.le_iff hv ha] at h₁
    rw [FloatRank.le_iff ht hv]
    omega
  · rw [FloatRank.le_iff hbeta hv] at h₁
    rw [FloatRank.le_iff hv ht]
    omega

theorem Ahead.exists_line {b a : Board} {j : Nat} (h : Ahead b j a) :
    ∃ moves, b.playAll moves = .ok a ∧ moves.length = j := by
  induction h with
  | root => exact ⟨[], rfl, rfl⟩
  | @move j a mv _ _ hmv ih =>
    obtain ⟨moves, hline, hlength⟩ := ih
    exact ⟨moves ++ [mv], Board.playAll_concat.mpr ⟨a, hline, hmv, rfl⟩, by simp [hlength]⟩

theorem staticScores {e : Evaluator} {weights : ScoreWeights} {b : Board} {depth : Nat}
    (hscores : ∀ b', Ahead b depth b' → b'.isDecided .strict = false →
      ∃ v, e.staticScore weights b' = .ok v ∧ v.isNaN = false) :
    Scores floatRanking (e.staticScore weights) (e.scoreOf weights) b depth := by
  refine ⟨fun _ _ => e.scoreOf_eq_of_key weights, fun b' hb' hopen => ?_⟩
  obtain ⟨v, hv, hnumber⟩ := hscores b' hb' hopen
  have hscore : e.scoreOf weights b' = v := by
    simp only [Evaluator.scoreOf, hv, Except.toOption, Option.getD_some]
  rw [hscore]
  exact ⟨hv, hnumber⟩

/-- A round stores true bounds only. So it does after each of its calls, and each of them answers as its
window asks for. -/
theorem round_stores_true_bounds {s : Setting Float} {e : Evaluator} {weights : ScoreWeights} {b : Board}
    {depth : Nat} (hevaluate : s.evaluate = e.staticScore weights)
    (hscores : ∀ b', Ahead b depth b' → b'.isDecided .strict = false →
      ∃ v, e.staticScore weights b' = .ok v ∧ v.isNaN = false)
    (hprevious : ∀ table ∈ s.previous, ∀ (k : BoardKey) entry, table[k]? = some entry →
      entry.value.isNaN = false) :
    (∀ checks r, round s b depth checks = .ok r → TableHolds (e.scoreOf weights) b depth r.table) ∧
    (s.deadline = .never → ∀ checks, ∃ r, round s b depth checks = .ok r) ∧
    ∀ c, CallIn s b depth c →
      (∃ moves, b.playAll moves = .ok c.board ∧ moves.length + c.plies = depth) ∧ c.alpha < c.beta ∧
      TableHolds (e.scoreOf weights) b depth c.progress.table ∧
      ∀ r p, c.run s = .ok (r, p) →
        TableHolds (e.scoreOf weights) b depth p.table ∧ c.Answers (e.scoreOf weights) r.value := by
  have hs : Scores floatRanking s.untimed.evaluate (e.scoreOf weights) b depth :=
    hevaluate ▸ staticScores hscores
  have horders : OrdersMoves s.untimed := ordersMoves (R := floatRanking) hprevious
  have hcall (c : Call Float) (hc : CallIn s b depth c) (r : Scored Float) (p : Progress Float)
      (hrun : c.run s = .ok (r, p)) :
      TableHolds (e.scoreOf weights) b depth p.table ∧ c.Answers (e.scoreOf weights) r.value := by
    obtain ⟨⟨j, hb, hn⟩, ha, hbeta, hlt, hsound, hstored⟩ := hc.untimed.proper rfl hs horders
    have hrun' := (UnderDeadline.visit s _ _ _ _ _).eq_ok hrun
    obtain ⟨r', p', hvisit, hr, hfits, hp⟩ := searches_visit hs rfl horders hn c.board c.alpha c.beta
      c.progress hb ha hbeta hlt hsound
    obtain ⟨rfl, rfl⟩ := Prod.mk.inj (Except.ok.inj (hvisit.symm.trans hrun'))
    have hp' := Stored.visit hn _ _ _ _ _ _ hb hstored hrun'
    exact ⟨hp.tableHolds hp' hs, Call.answers_of_fits hr ha hbeta ((FloatRank.lt_iff ha hbeta).mpr hlt)
      (hs.isNumber hb hn) hfits⟩
  refine ⟨fun checks r hround => ?_, fun hnever checks => ?_, fun c hc => ?_⟩
  · obtain ⟨⟨r', p⟩, hrun, hr⟩ := bind_eq_ok.mp hround
    obtain rfl := Except.ok.inj hr
    exact (hcall _ (.root checks) r' p hrun).1
  · obtain ⟨r, p, hvisit, -⟩ := visit_empty (s := s) (hevaluate ▸ staticScores hscores) hnever horders checks
    exact ⟨_, bind_eq_ok.mpr ⟨(r, p), hvisit, rfl⟩⟩
  · obtain ⟨⟨j, hb, hn⟩, ha, hbeta, hlt, hsound, hstored⟩ := hc.untimed.proper rfl hs horders
    obtain ⟨moves, hline, hlength⟩ := hb.exists_line
    exact ⟨⟨moves, hline, by omega⟩, (FloatRank.lt_iff ha hbeta).mpr hlt, hsound.tableHolds hstored hs,
      hcall c hc⟩

theorem staticScore_fourCells {j : Nat} {b : Board} (h : Ahead fourCells j b)
    (hopen : b.isDecided .strict = false) :
    ∃ v, patternless.staticScore (.forPatterns 0) b = .ok v ∧ v.isNaN = false := by
  have hcheck : checkAhead (fun b => match patternless.staticScore (.forPatterns 0) b with
      | .ok v => !v.isNaN
      | .error _ => false) fourCells.emptyCells fourCells = true := by decide +kernel
  have hnumber := h.check hcheck hopen
  split at hnumber
  · rename_i v hv
    exact ⟨v, hv, by simpa using hnumber⟩
  · simp at hnumber

theorem isNaN_earlierTable (k : BoardKey) (entry : TableEntry Float) (h : earlierTable[k]? = some entry) :
    entry.value.isNaN = false := by
  rcases Table.entry_of_insert h with ⟨-, rfl⟩ | h
  · exact floatRanking.lost
  · simp at h

theorem round_fourCells_stores_true_bounds :
    ∃ r, round ⟨patternless.staticScore (.forPatterns 0), some earlierTable, .never, false⟩ fourCells 2 0 =
        .ok r ∧ TableHolds (patternless.scoreOf (.forPatterns 0)) fourCells 2 r.table ∧
      ∃ c : Call Float, c.plies = 2 ∧ c.board = fourCells ∧ c.alpha < c.beta ∧
        c.Answers (patternless.scoreOf (.forPatterns 0)) r.value := by
  let s : Setting Float := ⟨patternless.staticScore (.forPatterns 0), some earlierTable, .never, false⟩
  obtain ⟨htable, hcompletes, hcalls⟩ := @round_stores_true_bounds s patternless (.forPatterns 0) fourCells 2 rfl
    (fun b' hb' hopen => staticScore_fourCells hb' hopen)
    (fun table htable => Option.some.inj htable ▸ isNaN_earlierTable)
  obtain ⟨r, hround⟩ := hcompletes rfl 0
  obtain ⟨⟨r', p⟩, hrun, hr⟩ := bind_eq_ok.mp hround
  obtain rfl := Except.ok.inj hr
  obtain ⟨-, hlt, -, hanswers⟩ := hcalls _ (.root 0)
  exact ⟨_, hround, htable 0 _ hround, _, rfl, rfl, hlt, (hanswers r' p hrun).2⟩

end Negamax
end HexGame
