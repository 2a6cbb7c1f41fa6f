import HexGame.Proofs.Negamax.Calls
import HexGame.Proofs.Tree

/-!
# Trees of a round

A round can keep a tree of what it looks at. Without the tree it does the same (`round_bare`), and the tree tells
what was done (`Records`): its nodes are the positions that were entered, and the children of a node are the moves
that were tried there, the first of the best of which gives its value.
-/
namespace HexGame
namespace Negamax

/-! ## Rounds without a tree -/

section

variable {V : Type} [GameValue V] {s : Setting V} {b : Board} {alpha beta : V} {p : Progress V}

def Setting.bare (s : Setting V) : Setting V := { s with wantTree := false }

def Scored.bare (r : Scored V) : Scored V := { r with node := none }

def Scan.bare (c : Scan V) : Scan V := { c with children := [] }

def Round.bare (r : Round V) : Round V := { r with tree := none }

def Entry.bare : Entry V → Entry V
  | .closed result p => .closed result.bare p
  | .opened alpha beta p => .opened alpha beta p

theorem enter_bare : enter s.bare b alpha beta p = Entry.bare <$> enter s b alpha beta p := by
  simp only [enter, map_bind]
  refine bind_congr fun q => ?_
  split
  · rfl
  · split <;> rfl

theorem explore_bare {recurse recurse' : Board → V → V → Progress V → Except Interruption (Scored V × Progress V)}
    (h : ∀ b alpha beta p, recurse' b alpha beta p = Prod.map Scored.bare id <$> recurse b alpha beta p)
    (moves : List Move) (c : Scan V) (p : Progress V) :
    explore recurse' s.bare b beta moves c.bare p =
      Prod.map Scan.bare id <$> explore recurse s b beta moves c p := by
  induction moves generalizing c p with
  | nil => rfl
  | cons mv moves ih =>
    simp only [explore, h, map_bind, bind_map_left]
    refine bind_congr fun q => bind_congr fun x => ?_
    simp only [apply_ite (Functor.map (Prod.map Scan.bare id)), ← ih]
    rfl

theorem visit_bare (n : Nat) (b : Board) (alpha beta : V) (p : Progress V) :
    visit s.bare n b alpha beta p = Prod.map Scored.bare id <$> visit s n b alpha beta p := by
  induction n generalizing b alpha beta p with
  | zero =>
    simp only [visit, enter_bare, map_bind, bind_map_left]
    refine bind_congr fun entry => ?_
    cases entry with
    | closed => rfl
    | opened =>
      simp only [Entry.bare, map_bind]
      rfl
  | succ n ih =>
    simp only [visit, enter_bare, map_bind, bind_map_left]
    refine bind_congr fun entry => ?_
    cases entry with
    | closed => rfl
    | opened alpha beta p =>
      simp only [Entry.bare, map_bind]
      refine bind_congr fun moves => ?_
      have hstart : (⟨alpha, none, [], false⟩ : Scan V) = Scan.bare ⟨alpha, none, [], false⟩ := rfl
      rw [hstart, explore_bare ih, bind_map_left]
      rfl

theorem round_bare (depth checks : Nat) : round s.bare b depth checks = Round.bare <$> round s b depth checks := by
  simp only [round, visit_bare, map_bind, bind_map_left]
  rfl

end

/-! ## The best of the moves -/

/-- What a move is worth to the player who made it, by the node of the position after it. -/
def worth (t : Tree (NodeLabel Float)) : Float := -t.value.value

/-- The first of the trees that no other one outdoes. -/
def FirstBest (ts : List (Tree (NodeLabel Float))) (t : Tree (NodeLabel Float)) : Prop :=
  (∃ before after, ts = before ++ t :: after ∧ ∀ u ∈ before, ¬ worth t ≤ worth u) ∧ ∀ u ∈ ts, ¬ worth t < worth u

namespace FirstBest

variable {ts : List (Tree (NodeLabel Float))} {t u : Tree (NodeLabel Float)}

theorem single (t : Tree (NodeLabel Float)) : FirstBest [t] t :=
  ⟨⟨[], [], rfl, by simp⟩, by simp [FloatRank.lt_irrefl]⟩

theorem keep (h : FirstBest ts t) (hu : ¬ worth t < worth u) : FirstBest (ts ++ [u]) t := by
  obtain ⟨⟨before, after, rfl, hbefore⟩, hmost⟩ := h
  refine ⟨⟨before, after ++ [u], by simp, hbefore⟩, fun w hw => ?_⟩
  rcases List.mem_append.mp hw with hw | hw
  · exact hmost w hw
  · rwa [List.mem_singleton.mp hw]

theorem replace (h : FirstBest ts t) (hu : worth t < worth u) : FirstBest (ts ++ [u]) u := by
  refine ⟨⟨ts, [], rfl, fun w hw hle => h.2 w hw (FloatRank.lt_of_lt_of_le hu hle)⟩, fun w hw hlt => ?_⟩
  rcases List.mem_append.mp hw with hw | hw
  · exact h.2 w hw (FloatRank.lt_trans hu hlt)
  · rw [List.mem_singleton.mp hw] at hlt
    exact FloatRank.lt_irrefl _ hlt

end FirstBest

/-! ## What a tree tells -/

/-- The tree tells how a position is searched with so many plies left. Where the search stops there are no
children; otherwise each child is the position after one of the moves, and these are legal and different. -/
inductive Records (evaluate : Board → Except Error Float) : Nat → Board → Tree (NodeLabel Float) → Prop where
  | table (n : Nat) (b : Board) (value : Float) : Records evaluate n b (.leaf ⟨b.lastMove, value, .table⟩)
  | decided (n : Nat) {b : Board} (hdecided : b.isDecided .strict = true) :
      Records evaluate n b (.leaf ⟨b.lastMove, GameValue.lost, .decided⟩)
  | depthLimit {b : Board} {value : Float} (hopen : b.isDecided .strict = false)
      (hvalue : evaluate b = .ok value) : Records evaluate 0 b (.leaf ⟨b.lastMove, value, .depthLimit⟩)
  | searched {n : Nat} {b : Board} {value : Float} {tag : Tag} {ts : List (Tree (NodeLabel Float))}
      (hopen : b.isDecided .strict = false) (htag : tag = .pruned ∨ tag = .searched) (moves : List Move)
      (hlegal : ∀ mv ∈ moves, mv ∈ b.legalMoves) (hnodup : moves.Nodup)
      (hmoves : ts.map (·.value.lastMove) = moves.map some)
      (hrest : ∀ t ∈ ts, ∀ mv, t.value.lastMove = some mv → Records evaluate n (b.place mv) t)
      (hvalue : (ts = [] ∧ value = GameValue.lost) ∨ ∃ t, FirstBest ts t ∧ value = worth t) :
      Records evaluate (n + 1) b (.node ⟨b.lastMove, value, tag⟩ ts)

theorem Records.lastMove {evaluate : Board → Except Error Float} {n : Nat} {b : Board}
    {t : Tree (NodeLabel Float)} (h : Records evaluate n b t) : t.value.lastMove = b.lastMove := by
  cases h <;> rfl

variable {s : Setting Float} {b : Board} {n : Nat} {p p' : Progress Float}

/-- The best move and its value are those of the first of the best children. -/
def TellsBest (ts : List (Tree (NodeLabel Float))) (best : Option (Move × Float)) : Prop :=
  (ts = [] ∧ best = none) ∨ ∃ t mv, FirstBest ts t ∧ t.value.lastMove = some mv ∧ best = some (mv, worth t)

/-- A visit tells what it found by a tree, and counts a node for each of this tree. -/
structure Scored.Told (s : Setting Float) (n : Nat) (b : Board) (base : Nat) (r : Scored Float) (nodes : Nat)
    (t : Tree (NodeLabel Float)) : Prop where
  node : r.node = some t
  value : t.value.value = r.value
  records : Records s.evaluate n b t
  nodes : nodes = base + t.size
  best : (t.children = [] ∧ r.best = none) ∨ ∃ u, FirstBest t.children u ∧ r.best = u.value.lastMove

/-- The trees of the moves tried so far tell what was found out about them. -/
structure Scan.Told (s : Setting Float) (n : Nat) (b : Board) (base : Nat) (tried : List Move) (c : Scan Float)
    (nodes : Nat) : Prop where
  moves : c.children.reverse.map (·.value.lastMove) = tried.map some
  rest : ∀ t ∈ c.children.reverse, ∀ mv, t.value.lastMove = some mv → Records s.evaluate n (b.place mv) t
  best : TellsBest c.children.reverse c.best
  nodes : nodes = base + Tree.sizes c.children.reverse

namespace Scan.Told

variable {base nodes nodes' : Nat} {tried : List Move} {c : Scan Float}

theorem start (alpha : Float) (base : Nat) : Told s n b base [] ⟨alpha, none, [], false⟩ base where
  moves := rfl
  rest := by simp
  best := .inl ⟨rfl, rfl⟩
  nodes := rfl

theorem add (h : c.Told s n b base tried nodes) (mv : Move) {child : Scored Float} {t : Tree (NodeLabel Float)}
    (hchild : child.Told s n (b.place mv) nodes nodes' t) (alpha : Float) (cut : Bool) :
    Told s n b base (tried ++ [mv])
      { c.add mv (-child.value) child.node with alpha := alpha, cut := cut } nodes' := by
  have hlast : t.value.lastMove = some mv := hchild.records.lastMove
  have hworth : -child.value = worth t := by rw [worth, hchild.value]
  have hchildren : (c.add mv (-child.value) child.node).children.reverse = c.children.reverse ++ [t] := by
    simp [Scan.add, hchild.node]
  refine ⟨?_, ?_, ?_, ?_⟩ <;> dsimp only <;> rw [hchildren]
  · simp [h.moves, hlast]
  · intro u hu m hm
    rcases List.mem_append.mp hu with hu | hu
    · exact h.rest u hu m hm
    · obtain rfl := List.mem_singleton.mp hu
      obtain rfl := Option.some.inj (hlast.symm.trans hm)
      exact hchild.records
  · rw [Scan.add, hworth]
    rcases h.best with ⟨hnil, hbest⟩ | ⟨u, m, hu, hm, hbest⟩
    · rw [hnil, hbest]
      exact .inr ⟨t, mv, .single t, hlast, rfl⟩
    · rw [hbest]
      by_cases hlt : worth u < worth t
      · exact .inr ⟨t, mv, hu.replace hlt, hlast, if_pos (decide_eq_true hlt)⟩
      · exact .inr ⟨u, m, hu.keep hlt, hm, if_neg (decide_eq_true_iff.not.mpr hlt)⟩
  · rw [hchild.nodes, h.nodes, Tree.sizes_concat, Nat.add_assoc]

end Scan.Told

theorem Scored.Told.leaf (hwant : s.wantTree = true) (base : Nat) {value : Float} {tag : Tag}
    (h : Records s.evaluate n b (.leaf ⟨b.lastMove, value, tag⟩)) :
    (s.leaf b value tag).Told s n b base (base + 1) (.leaf ⟨b.lastMove, value, tag⟩) where
  node := if_pos hwant
  value := rfl
  records := h
  nodes := rfl
  best := .inl ⟨rfl, rfl⟩

/-- A visit that comes to its end leaves a tree, and it has one node for each one that was counted. -/
theorem exists_told (hwant : s.wantTree = true) {alpha beta : Float} {r : Scored Float}
    (h : visit s n b alpha beta p = .ok (r, p')) : ∃ t, r.Told s n b p.nodes p'.nodes t := by
  induction n generalizing b alpha beta p p' r with
  | zero =>
    cases visited_of_visit h with
    | table => exact ⟨_, .leaf hwant _ (.table _ _ _)⟩
    | decided hdecided => exact ⟨_, .leaf hwant _ (.decided _ hdecided)⟩
    | depthLimit hopen hvalue => exact ⟨_, .leaf hwant _ (.depthLimit hopen hvalue)⟩
  | succ n ih =>
    cases visited_of_visit h with
    | table => exact ⟨_, .leaf hwant _ (.table _ _ _)⟩
    | decided hdecided => exact ⟨_, .leaf hwant _ (.decided _ hdecided)⟩
    | @searched _ _ _ moves c q hopen hmoves hrun =>
      obtain ⟨tried, hfirst, htold⟩ := explore_induct
        (I := fun tried c q => c.Told s n b p.entered.nodes tried q.nodes)
        (fun tried mv _ c p child p' alpha cut hc hchild => by
          obtain ⟨t, ht⟩ := ih hchild
          exact hc.add mv ht alpha cut)
        (.start _ _) hrun
      have hperm := perm_of_orderedMoves hmoves
      refine ⟨.node ⟨b.lastMove, c.value, if c.cut then .pruned else .searched⟩ c.children.reverse,
        if_pos hwant, rfl, .searched hopen (by cases c.cut <;> simp) tried
          (fun mv hmv => hperm.mem_iff.mp (hfirst.subset hmv))
          ((hperm.nodup_iff.mpr (Board.nodup_legalMoves b)).sublist hfirst.sublist)
          htold.moves htold.rest ?_, ?_, ?_⟩
      · rcases htold.best with ⟨hnil, hbest⟩ | ⟨t, mv, ht, -, hbest⟩
        · exact .inl ⟨hnil, by rw [Scan.value, hbest]⟩
        · exact .inr ⟨t, ht, by rw [Scan.value, hbest]⟩
      · show q.nodes = p.nodes + Tree.size (.node _ _)
        rw [htold.nodes, Tree.size]
        exact Nat.add_assoc _ _ _
      · rcases htold.best with ⟨hnil, hbest⟩ | ⟨t, mv, ht, hmv, hbest⟩
        · exact .inl ⟨hnil, by rw [hbest]; rfl⟩
        · exact .inr ⟨t, ht, by rw [hbest, hmv]; rfl⟩

/-! ## Numbers -/

/-- The value of no node is NaN. -/
def Numbers (t : Tree (NodeLabel Float)) : Prop := t.Everywhere fun u => u.value.value.isNaN = false

/-- The value of no entry is NaN. -/
def NumberTable (table : Table Float) : Prop :=
  ∀ (k : BoardKey) entry, table[k]? = some entry → entry.value.isNaN = false

theorem NumberTable.store (h : NumberTable p.table) {value : Float} (hvalue : value.isNaN = false) (k : BoardKey)
    (bound : Bound) : NumberTable (p.store k value bound).table := by
  intro k' entry hentry
  rcases Table.entry_of_insert hentry with ⟨-, rfl⟩ | hentry
  · exact hvalue
  · exact h k' entry hentry

theorem NumberTable.answer (h : NumberTable p.table) {k : BoardKey} {alpha beta value : Float}
    (hprobe : p.table.probe k alpha beta = .answer value) : value.isNaN = false := by
  obtain ⟨entry, hentry, rfl⟩ := value_of_answer hprobe
  exact h k entry hentry

structure Scored.Numeric (r : Scored Float) (p : Progress Float) : Prop where
  value : r.value.isNaN = false
  table : NumberTable p.table
  node : ∀ t ∈ r.node, Numbers t

theorem Scored.Numeric.leaf {value : Float} (hvalue : value.isNaN = false) (b : Board) (tag : Tag)
    (hp : NumberTable p.table) : (s.leaf b value tag).Numeric p := by
  refine ⟨hvalue, hp, fun t ht => ?_⟩
  unfold Setting.leaf at ht
  split at ht
  · exact Option.some.inj ht ▸ .node hvalue nofun
  · cases ht

structure Scan.Numeric (c : Scan Float) (p : Progress Float) : Prop where
  table : NumberTable p.table
  best : ∀ mv value, c.best = some (mv, value) → value.isNaN = false
  children : ∀ t ∈ c.children, Numbers t

namespace Scan.Numeric

variable {c : Scan Float}

theorem start (alpha : Float) (hp : NumberTable p.table) : Numeric ⟨alpha, none, [], false⟩ p.entered where
  table := hp
  best _ _ h := by cases h
  children := by simp

theorem add (h : c.Numeric p) (mv : Move) {child : Scored Float} (hchild : child.Numeric p') (alpha : Float)
    (cut : Bool) :
    Numeric { c.add mv (-child.value) child.node with alpha := alpha, cut := cut } p' := by
  have hneg : (-child.value).isNaN = false := (FloatRank.isNaN_neg _).trans hchild.value
  refine ⟨hchild.table, fun m value hbest => ?_, fun t ht => ?_⟩
  · simp only [Scan.add] at hbest
    split at hbest
    · cases hbest
      exact hneg
    · rename_i hc
      split at hbest
      · cases hbest
        exact hneg
      · exact h.best m value (hc.trans hbest)
  · rcases List.mem_append.mp ht with ht | ht
    · exact hchild.node t (Option.mem_toList.mp ht)
    · exact h.children t ht

theorem value (h : c.Numeric p) : c.value.isNaN = false := by
  unfold Scan.value
  split
  · rename_i hbest
    exact h.best _ _ hbest
  · exact floatRanking.lost

end Scan.Numeric

theorem numeric_of_visit {b₀ : Board} {depth j : Nat} (hscores : ∀ b', Ahead b₀ depth b' →
      b'.isDecided .strict = false → ∀ v, s.evaluate b' = .ok v → v.isNaN = false)
    (hb : Ahead b₀ j b) (hn : j + n = depth) {alpha beta : Float} {r : Scored Float}
    (h : visit s n b alpha beta p = .ok (r, p')) (hp : NumberTable p.table) : r.Numeric p' := by
  induction n generalizing j b alpha beta p p' r with
  | zero =>
    cases visited_of_visit h with
    | table hprobe => exact .leaf (hp.answer hprobe) _ _ hp
    | decided => exact .leaf floatRanking.lost _ _ (hp.store floatRanking.lost _ _)
    | depthLimit hopen hvalue =>
      have hnumber := hscores b (hn ▸ hb) hopen _ hvalue
      exact .leaf hnumber _ _ (hp.store hnumber _ _)
  | succ n ih =>
    cases visited_of_visit h with
    | table hprobe => exact .leaf (hp.answer hprobe) _ _ hp
    | decided => exact .leaf floatRanking.lost _ _ (hp.store floatRanking.lost _ _)
    | searched hopen hmoves hrun =>
      have hlegal := fun mv => (perm_of_orderedMoves hmoves).mem_iff (a := mv) |>.mp
      obtain ⟨-, -, hc⟩ := explore_induct (I := fun _ => Scan.Numeric)
        (fun _ mv hmv _ _ _ _ alpha cut hc hchild =>
          hc.add mv (ih (hb.move hopen (hlegal mv hmv)) (by omega) hchild hc.table) alpha cut)
        (.start _ hp) hrun
      refine ⟨hc.value, hc.table.store hc.value _ _, fun t ht => ?_⟩
      dsimp only at ht
      split at ht
      · exact Option.some.inj ht ▸ .node hc.value fun u hu => hc.children u (List.mem_reverse.mp hu)
      · cases ht

theorem Records.worth_le {evaluate : Board → Except Error Float} {t : Tree (NodeLabel Float)}
    (h : Records evaluate n b t) (hnumbers : Numbers t) :
    t.Everywhere fun u => ∀ w ∈ u.children, worth w ≤ u.value.value := by
  induction h with
  | table | decided | depthLimit => exact .node (by simp) (by simp)
  | @searched n b value tag ts hopen htag moves hlegal hnodup hmoves hrest hvalue ih =>
    refine .node (fun w hw => ?_) fun t ht => ?_
    · obtain ⟨hnil, -⟩ | ⟨t, ⟨⟨before, after, hts, -⟩, hmost⟩, rfl⟩ := hvalue
      · simp [hnil] at hw
      · have hworth {u : Tree (NodeLabel Float)} (hu : u ∈ ts) : (worth u).isNaN = false :=
          (FloatRank.isNaN_neg _).trans (hnumbers.children u hu).here
        exact FloatRank.le_of_not_lt (hworth (by simp [hts])) (hworth hw) (hmost w hw)
    · obtain ⟨mv, -, hmv⟩ := List.mem_map.mp (hmoves ▸ List.mem_map_of_mem ht)
      exact ih t ht mv hmv.symm (hnumbers.children t ht)

/-! ## A whole round -/

/-- A round is the same with a tree and without it. The tree has a node for each one that was counted and tells
how the round went, and the best move is that of the first of the best moves at its root. Where no static score is
NaN, the value of a node is the largest of those that its moves are worth. -/
theorem tree_records_round (s : Setting Float) (b : Board) (depth checks : Nat) :
    round { s with wantTree := false } b depth checks =
      Round.bare <$> round { s with wantTree := true } b depth checks ∧
    ∀ r, round { s with wantTree := true } b depth checks = .ok r →
      ∃ t, r.tree = some t ∧ t.size = r.nodes ∧ t.value.value = r.value ∧ Records s.evaluate depth b t ∧
        ((t.children = [] ∧ r.best = none) ∨ ∃ u, FirstBest t.children u ∧ r.best = u.value.lastMove) ∧
        ((∀ b', Ahead b depth b' → b'.isDecided .strict = false →
            ∀ v, s.evaluate b' = .ok v → v.isNaN = false) →
          t.Everywhere fun u => ∀ w ∈ u.children, worth w ≤ u.value.value) := by
  refine ⟨round_bare (s := { s with wantTree := true }) depth checks, fun r hround => ?_⟩
  obtain ⟨⟨result, p⟩, hvisit, hr⟩ := bind_eq_ok.mp hround
  obtain rfl := Except.ok.inj hr
  obtain ⟨t, ht⟩ := exists_told (s := { s with wantTree := true }) rfl hvisit
  refine ⟨t, ht.node, (ht.nodes.trans (Nat.zero_add _)).symm, ht.value, ht.records, ht.best, fun hscores => ?_⟩
  have hempty : NumberTable (∅ : Table Float) := fun k entry hentry => by simp at hentry
  have hnumeric := numeric_of_visit (s := { s with wantTree := true }) hscores .root (Nat.zero_add depth) hvisit
    hempty
  exact ht.records.worth_le (hnumeric.node t ht.node)

theorem tree_records_round_fourCells : ∃ r t mv,
    round ⟨patternless.staticScore (.forPatterns 0), some earlierTable, .never, true⟩ fourCells 2 0 = .ok r ∧
    r.tree = some t ∧ t.size = r.nodes ∧ r.best = some mv ∧
    (∃ u, FirstBest t.children u ∧ u.value.lastMove = some mv) ∧
    t.Everywhere fun u => ∀ w ∈ u.children, worth w ≤ u.value.value := by
  let s : Setting Float := ⟨patternless.staticScore (.forPatterns 0), some earlierTable, .never, true⟩
  have hscores : Scores floatRanking s.evaluate (patternless.scoreOf (.forPatterns 0)) fourCells 2 :=
    staticScores fun b' hb' hopen => staticScore_fourCells hb' hopen
  obtain ⟨result, p, hvisit, -, -, -, hnone, -⟩ := visit_empty hscores rfl
    (ordersMoves (R := floatRanking) fun table htable => Option.some.inj htable ▸ isNaN_earlierTable) 0
  have hround : round s fourCells 2 0 = .ok ⟨result.value, result.best, p.nodes, p.checks, p.table, result.node⟩ :=
    bind_eq_ok.mpr ⟨(result, p), hvisit, rfl⟩
  obtain ⟨t, htree, hsize, -, -, hbest, hworth⟩ := (tree_records_round s fourCells 2 0).2 _ hround
  have hsome : result.best ≠ none := by
    rw [Ne, hnone]
    simp only [not_or]
    exact ⟨by decide +kernel, by decide, by decide +kernel⟩
  obtain ⟨mv, hmv⟩ := Option.ne_none_iff_exists'.mp hsome
  obtain ⟨-, h⟩ | ⟨u, hu, hlast⟩ := hbest
  · exact absurd h hsome
  · refine ⟨_, t, mv, hround, htree, hsize, hmv, ⟨u, hu, hlast ▸ hmv⟩, hworth fun b' hb' hopen v hv => ?_⟩
    obtain ⟨w, hw, hnumber⟩ := staticScore_fourCells hb' hopen
    exact Except.ok.inj (hw.symm.trans hv) ▸ hnumber

end Negamax
end HexGame
