import HexGame.Proofs.MonteCarlo.Iteration
import HexGame.Proofs.MonteCarlo.Visit

/-!
# The accounts of a tree

Every visit of a node goes on to one of its children, but for those that came before it had any. So the
visits of a node are those of its children and as many more as it took to expand it (`Accounted`). With a
threshold of zero the first visit of the root expands it, and that of any other node does not, because a
child that is picked at random is not looked at again.
-/
namespace HexGame
namespace MonteCarlo

variable {V G : Type} [MeanValue V] [ChoiceSource G] {c : Config V} {b : Board} {score : V}
variable {t t' u : SearchTree V} {ts : List (SearchTree V)} {i : Nat}

def visitsOf (ts : List (SearchTree V)) : Nat := (ts.map (·.value.visits)).sum

omit [MeanValue V] in
@[simp] theorem visitsOf_cons : visitsOf (t :: ts) = t.value.visits + visitsOf ts := by
  simp [visitsOf]

omit [MeanValue V] in
theorem visitsOf_set (hi : ts[i]? = some t) (u : SearchTree V) :
    visitsOf (ts.set i u) + t.value.visits = visitsOf ts + u.value.visits := by
  induction ts generalizing i with
  | nil => cases hi
  | cons t₀ ts ih =>
    cases i with
    | zero =>
      obtain rfl := Option.some.inj hi
      simp only [List.set_cons_zero, visitsOf_cons]
      omega
    | succ i =>
      have hrest := ih hi
      simp only [List.set_cons_succ, visitsOf_cons]
      omega

theorem visitsOf_childrenOf (b : Board) : visitsOf (childrenOf b : List (SearchTree V)) = 0 := by
  unfold visitsOf childrenOf
  rw [List.map_map]
  exact List.sum_eq_zero fun n hn => by
    obtain ⟨mv, -, rfl⟩ := List.mem_map.mp hn
    rfl

omit [MeanValue V] in
theorem map_board_set (hi : ts[i]? = some t) (h : u.value.board = t.value.board) :
    (ts.set i u).map (·.value.board) = ts.map (·.value.board) := by
  obtain ⟨hlt, rfl⟩ := List.getElem?_eq_some_iff.mp hi
  have hself := @List.set_getElem_self _ (ts.map (·.value.board)) i (by simpa using hlt)
  rwa [List.getElem_map, ← h, ← List.map_set] at hself

/-- What holds at a node: its children are the positions one move later, and its visits are accounted
for. -/
structure Accounted (c : Config V) (t : SearchTree V) : Prop where
  boards : t.children ≠ [] →
    t.children.map (·.value.board) = t.value.board.legalMoves.map t.value.board.place
  decided : t.value.board.isDecided c.terminal = true → t.children = []
  leaf : t.children = [] → t.value.board.isDecided c.terminal = false →
    t.value.visits ≤ max 1 c.expandThreshold
  inner : t.children ≠ [] → c.expandThreshold + visitsOf t.children ≤ t.value.visits ∧
    t.value.visits ≤ max 1 c.expandThreshold + visitsOf t.children

omit [MeanValue V] in
theorem accounted_leaf {s : Statistic V}
    (h : s.board.isDecided c.terminal = false → s.visits ≤ max 1 c.expandThreshold) :
    (Tree.leaf s).Everywhere (Accounted c) :=
  .node ⟨fun h => absurd rfl h, fun _ => rfl, fun _ => h, fun h => absurd rfl h⟩ (by simp)

theorem accounted_fresh (c : Config V) (b : Board) : (Tree.leaf (.fresh b)).Everywhere (Accounted c) :=
  accounted_leaf fun _ => Nat.zero_le _

omit [MeanValue V] in
theorem accounted_node {s : Statistic V} (hne : ts ≠ []) (hopen : s.board.isDecided c.terminal = false)
    (hboards : ts.map (·.value.board) = s.board.legalMoves.map s.board.place)
    (hvisits : c.expandThreshold + visitsOf ts ≤ s.visits ∧ s.visits ≤ max 1 c.expandThreshold + visitsOf ts)
    (hts : ∀ t ∈ ts, t.Everywhere (Accounted c)) : (Tree.node s ts).Everywhere (Accounted c) :=
  .node ⟨fun _ => hboards, fun h => Bool.noConfusion (hopen.symm.trans h), fun h => absurd h hne,
    fun _ => hvisits⟩ hts

theorem Visited.accounted (h : Visited G c score t t') (ht : t.Everywhere (Accounted c)) :
    t'.Everywhere (Accounted c) := by
  induction h with
  | @leaf s s' g g' score hstays _ hs =>
    obtain ⟨hboard, hvisits⟩ := record_eq_ok hs
    refine accounted_leaf fun hopen => ?_
    rw [hboard] at hopen
    rcases hstays with hstays | hdecided
    · omega
    · exact absurd hdecided (by simp [hopen])
  | @expanded s s' u g g' score i mv hn hopen hi _ hu hs =>
    obtain ⟨hboard, hvisits⟩ := record_eq_ok hs
    obtain ⟨hboard', hvisits'⟩ := record_eq_ok hu
    have hpicked := childrenOf_of_legal (V := V) hi
    have hlen := (List.getElem?_eq_some_iff.mp hpicked).1
    have hold := ht.here.leaf rfl hopen
    have hcount := visitsOf_set hpicked (.leaf u)
    simp only [visitsOf_childrenOf, Tree.value_leaf, Tree.value_node, Statistic.fresh] at hold hcount hvisits'
    refine accounted_node (List.ne_nil_of_length_pos (by rw [List.length_set]; omega)) (by rwa [hboard])
      ?_ (by omega) (forall_mem_set (forall_mem_childrenOf fun _ _ => accounted_fresh c _) ?_)
    · rw [map_board_set (u := .leaf u) hpicked hboard', hboard]
      simp [childrenOf, Statistic.fresh]
    · exact accounted_leaf fun _ => by omega
  | @child s s' ts t t' score i hi h hs ih =>
    obtain ⟨hboard, hvisits⟩ := record_eq_ok hs
    obtain ⟨hboard', hvisits'⟩ := h.value
    have hlen := (List.getElem?_eq_some_iff.mp hi).1
    have hne : ts ≠ [] := List.ne_nil_of_mem (List.mem_of_getElem? hi)
    have hopen : s.board.isDecided c.terminal = false := by
      rw [← Bool.not_eq_true]
      exact fun hdecided => hne (ht.here.decided hdecided)
    have hcount := visitsOf_set hi t'
    have hold := ht.here.inner hne
    simp only [Tree.value_node, Tree.children_node] at hold
    refine accounted_node (List.ne_nil_of_length_pos (by rw [List.length_set]; omega)) (by rwa [hboard])
      ?_ (by omega) (forall_mem_set ht.children (ih (ht.children t (List.mem_of_getElem? hi))))
    rw [map_board_set hi hboard', hboard]
    exact ht.here.boards hne

/-! ## Searches -/

namespace Search

/-- The searches with one configuration: a new one, and what becomes of a search by iterations, when its
game goes on, or when it is started again from one of its subtrees. -/
inductive Reachable (c : Config Float) : Search G → Prop where
  | start (b : Board) (g : G) : Reachable c (start b c g)
  | iterate {s s' : Search G} (h : Reachable c s) (hrun : s.iterate = .ok s') : Reachable c s'
  | continueFrom {s : Search G} (h : Reachable c s) (b : Board) : Reachable c (s.continueFrom b)
  | restart {s : Search G} {path : List Nat} {t : SearchTree Float} (h : Reachable c s)
      (ht : s.root.subtree? path = some t) (g : G) : Reachable c (ofTree t c g)

variable {c : Config Float} {s s' : Search G} {n : Nat}

theorem iterate_eq_ok (h : s.iterate = .ok s') :
    s'.config = s.config ∧ ∃ score, Visited G s.config score s.root s'.root := by
  obtain ⟨⟨score, root, source⟩, hrun, h⟩ := bind_eq_ok.mp h
  cases h
  exact ⟨rfl, score, visited_of_iterate hrun⟩

theorem iterateTimes_board (h : s.iterateTimes n = .ok s') :
    s'.root.value.board = s.root.value.board := by
  induction n generalizing s with
  | zero => exact Except.ok.inj h ▸ rfl
  | succ n ih =>
    obtain ⟨s₁, hstep, h⟩ := bind_eq_ok.mp h
    obtain ⟨-, score, hvisited⟩ := iterate_eq_ok hstep
    exact (ih h).trans hvisited.value.1

theorem visits_of_iterateTimes (h : s.iterateTimes n = .ok s') (hn : n ≠ 0) :
    s.root.value.visits + n ≤ Statistic.maxVisits := by
  induction n generalizing s with
  | zero => exact absurd rfl hn
  | succ n ih =>
    obtain ⟨s₁, hstep, h⟩ := bind_eq_ok.mp h
    obtain ⟨-, score, hvisited⟩ := iterate_eq_ok hstep
    have hcount := hvisited.value.2
    have hroom := hvisited.visits_lt
    cases n with
    | zero => omega
    | succ n =>
      have hrest := ih h (Nat.succ_ne_zero n)
      omega

/-- A search makes no more iterations than there is room for visits of its root. -/
theorem iterateTimes_eq_error (hn : n ≠ 0) (hroom : Statistic.maxVisits < s.root.value.visits + n) :
    ∃ fault, s.iterateTimes n = .error fault := by
  cases hrun : s.iterateTimes n with
  | error fault => exact ⟨fault, rfl⟩
  | ok s' => exact absurd (visits_of_iterateTimes hrun hn) (Nat.not_le.mpr hroom)

omit [ChoiceSource G] in
/-- What a search continues from is a subtree of it or a new leaf. -/
theorem continueFrom_root (s : Search G) (b : Board) :
    (s.continueFrom b).config = s.config ∧ ((s.continueFrom b).root = .leaf (.fresh b) ∨
      ∃ u ∈ s.root.children, (s.continueFrom b).root ∈ u.children) := by
  unfold continueFrom
  simp only
  split
  · rename_i t ht
    obtain ⟨u, hu, htu⟩ := List.mem_flatMap.mp (List.mem_of_find?_eq_some ht)
    exact ⟨rfl, .inr ⟨u, hu, htu⟩⟩
  · exact ⟨rfl, .inl rfl⟩

namespace Reachable

theorem config_eq (h : s.Reachable c) : s.config = c := by
  induction h with
  | start b g => rfl
  | iterate _ hrun ih => exact (iterate_eq_ok hrun).1.trans ih
  | continueFrom _ b ih => exact (continueFrom_root _ b).1.trans ih
  | restart _ _ g => rfl

theorem iterateTimes (h : s.Reachable c) (hrun : s.iterateTimes n = .ok s') : s'.Reachable c := by
  induction n generalizing s with
  | zero => exact Except.ok.inj hrun ▸ h
  | succ n ih =>
    obtain ⟨s₁, hstep, hrun⟩ := bind_eq_ok.mp hrun
    exact ih (h.iterate hstep) hrun

theorem accounted (h : s.Reachable c) : s.root.Everywhere (Accounted c) := by
  induction h with
  | start b g => exact accounted_fresh c b
  | iterate h hrun ih =>
    obtain ⟨-, score, hvisited⟩ := iterate_eq_ok hrun
    rw [h.config_eq] at hvisited
    exact hvisited.accounted ih
  | @continueFrom s _ b ih =>
    rcases (continueFrom_root s b).2 with hroot | ⟨u, hu, hroot⟩
    · rw [hroot]
      exact accounted_fresh c b
    · exact (ih.children u hu).children _ hroot
  | restart _ ht g ih => exact ih.subtree ht

end Reachable

/-- In every tree that a search reaches, the children of a node are all the positions one move later, in
order, no decided position has any, and all visits of a node but those before it was expanded are visits of
its children. An iteration adds one visit to each node on one path down to a leaf, and no other. -/
theorem Reachable.visits_add_up (h : s.Reachable c) :
    (∀ path t, s.root.subtree? path = some t →
      (t.children ≠ [] → t.children.map (fun u => .ok u.value.board) =
        t.value.board.legalMoves.map t.value.board.play) ∧
      (t.value.board.isDecided c.terminal = true → t.children = []) ∧
      (1 ≤ c.expandThreshold →
        (t.children ≠ [] → t.value.visits = c.expandThreshold + visitsOf t.children) ∧
        (t.children = [] → t.value.board.isDecided c.terminal = false →
          t.value.visits ≤ c.expandThreshold)) ∧
      (c.expandThreshold = 0 → t.children ≠ [] →
        t.value.visits = visitsOf t.children ∨ t.value.visits = visitsOf t.children + 1)) ∧
    ∀ s', s.iterate = .ok s' → ∃ path, VisitedAlong path s.root s'.root := by
  refine ⟨fun path t ht => ?_, fun s' hrun => ?_⟩
  · have hnode := (h.accounted.subtree ht).here
    refine ⟨fun hne => ?_, hnode.decided, fun hT => ⟨fun hne => ?_, fun hnil hopen => ?_⟩, fun hT hne => ?_⟩
    · have hboards := congrArg (List.map (Except.ok (ε := Fault))) (hnode.boards hne)
      rw [List.map_map, List.map_map] at hboards
      exact hboards.trans (List.map_congr_left fun mv hmv => (Board.play_of_mem_legalMoves hmv).symm)
    · have hvisits := hnode.inner hne
      omega
    · have hvisits := hnode.leaf hnil hopen
      omega
    · have hvisits := hnode.inner hne
      omega
  · obtain ⟨-, score, hvisited⟩ := iterate_eq_ok hrun
    exact hvisited.exists_path

/-- The first ten visits of a root leave it a leaf, the other ten are visits of its children. -/
theorem Reachable.visits_add_up_fourCells :
    ∃ s : Search Generator, s.Reachable Config.default ∧ s.root.value.visits = 20 ∧
      visitsOf s.root.children = 10 := by
  let start : Search Generator := Search.start (Board.blank 2 .red two_le_maxSize) .default (.ofSeed 1)
  have hplay : start.root.value.board.Playable := fun hfull => absurd hfull (by decide +kernel)
  have hgrown : Grown 0 start.root := grown_fresh hplay 0
  obtain ⟨s, hrun, -, hvisits⟩ := iterateTimes_spec (n := 20) hgrown (by decide)
  have hopen : s.root.value.board.isDecided Config.default.terminal = false := by
    rw [iterateTimes_board hrun]
    decide +kernel
  have hs : s.Reachable Config.default := (Reachable.start _ _).iterateTimes hrun
  obtain ⟨hnodes, -⟩ := hs.visits_add_up
  obtain ⟨-, -, hcounts, -⟩ := hnodes [] s.root rfl
  obtain ⟨hinner, hleaf⟩ := hcounts (by decide)
  have htwenty : s.root.value.visits = 20 := hvisits
  have hten : Config.default.expandThreshold = 10 := rfl
  refine ⟨s, hs, htwenty, ?_⟩
  by_cases hnil : s.root.children = []
  · have hten := hleaf hnil hopen
    omega
  · have hcount := hinner hnil
    omega

end Search

end MonteCarlo
end HexGame
