import HexGame.MonteCarlo.Search
import HexGame.Proofs.Board.Line
import HexGame.Proofs.Tree

/-!
# What a visit does to a tree

An iteration changes a tree along one path from the root to a leaf (`Visited`). The nodes on it are visited
once more, with a score that changes sides from node to node; the leaf may get its children, and one of them
is visited with it. All other nodes stay as they are.
-/
namespace HexGame

namespace MonteCarlo

variable {V G : Type} [MeanValue V] [ChoiceSource G] {c : Config V} {b : Board} {g g' : G} {i : Nat}
variable {s : Statistic V} {t t' : SearchTree V} {ts ts' : List (SearchTree V)} {score : V}
variable {select : Selection V}

/-- One visit of a tree with the score that it brings to the root. -/
inductive Visited (G : Type) [ChoiceSource G] (c : Config V) : V → SearchTree V → SearchTree V → Prop where
  /-- A leaf that stays one: it has too few visits, or its game is over. -/
  | leaf {s s' : Statistic V} {g g' : G} {score : V}
      (hstays : s.visits < c.expandThreshold ∨ s.board.isDecided c.terminal = true)
      (hplayout : playout c s.board g = .ok (score, g')) (hs : s.record score = .ok s') :
      Visited G c score (.node s []) (.node s' [])
  /-- A leaf that gets its children. -/
  | expanded {s s' u : Statistic V} {g g' : G} {score : V} {i : Nat} {mv : Move}
      (hvisits : c.expandThreshold ≤ s.visits) (hopen : s.board.isDecided c.terminal = false)
      (hi : s.board.legalMoves[i]? = some mv)
      (hplayout : playout c (s.board.place mv) g = .ok (score, g'))
      (hu : (Statistic.fresh (s.board.place mv)).record score = .ok u) (hs : s.record (-score) = .ok s') :
      Visited G c (-score) (.node s []) (.node s' ((childrenOf s.board).set i (.leaf u)))
  /-- A node with children, one of which is visited. -/
  | child {s s' : Statistic V} {ts : List (SearchTree V)} {t t' : SearchTree V} {score : V} {i : Nat}
      (hi : ts[i]? = some t) (h : Visited G c score t t') (hs : s.record (-score) = .ok s') :
      Visited G c (-score) (.node s ts) (.node s' (ts.set i t'))

theorem record_eq_ok {s' : Statistic V} (h : s.record score = .ok s') :
    s'.board = s.board ∧ s'.visits = s.visits + 1 := by
  unfold Statistic.record at h
  split at h
  · obtain rfl := Except.ok.inj h
    exact ⟨rfl, rfl⟩
  · cases h

theorem visits_lt_of_record {s' : Statistic V} (h : s.record score = .ok s') : s.visits < Statistic.maxVisits := by
  unfold Statistic.record at h
  split at h
  · assumption
  · cases h

theorem legalMoves_ne_nil_of_playout (h : playout c b g = .ok (score, g'))
    (hopen : b.isDecided c.terminal = false) : b.legalMoves ≠ [] := by
  intro hnil
  unfold playout playoutFrom at h
  simp [hopen, hnil] at h

theorem getElem?_childrenOf (b : Board) (i : Nat) :
    (childrenOf b : List (SearchTree V))[i]? = (b.legalMoves[i]?).map fun mv => .leaf (.fresh (b.place mv)) :=
  List.getElem?_map

theorem childrenOf_of_legal {mv : Move} (h : b.legalMoves[i]? = some mv) :
    (childrenOf b : List (SearchTree V))[i]? = some (.leaf (.fresh (b.place mv))) := by
  rw [getElem?_childrenOf, h]
  rfl

theorem forall_mem_childrenOf {P : SearchTree V → Prop} (h : ∀ mv ∈ b.legalMoves, P (.leaf (.fresh (b.place mv)))) :
    ∀ t ∈ childrenOf b, P t :=
  List.forall_mem_map.mpr h

theorem expansion_eq_cons {child : SearchTree V} {children : List (SearchTree V)}
    (h : expansion c s = child :: children) :
    c.expandThreshold ≤ s.visits ∧ s.board.isDecided c.terminal = false ∧
      childrenOf s.board = child :: children := by
  unfold expansion at h
  split at h
  · cases h
  · rename_i hgrows
    simp only [Bool.or_eq_true, decide_eq_true_eq, not_or, Nat.not_lt, Bool.not_eq_true] at hgrows
    exact ⟨hgrows.1, hgrows.2, h⟩

theorem visitLeaf_of_nil (hstays : expansion c s = []) (h : visitLeaf c s g = .ok (score, t', g')) :
    ∃ s', playout c s.board g = .ok (score, g') ∧ s.record score = .ok s' ∧ t' = .leaf s' := by
  unfold visitLeaf at h
  simp only [hstays] at h
  obtain ⟨⟨score₁, g₁⟩, hplayout, h⟩ := bind_eq_ok.mp h
  obtain ⟨s', hs, h⟩ := bind_eq_ok.mp h
  cases h
  exact ⟨s', hplayout, hs, rfl⟩

theorem visitLeaf_of_cons {child : SearchTree V} {children : List (SearchTree V)} {i : Fin (children.length + 1)}
    {g₁ : G} (hgrows : expansion c s = child :: children)
    (hdraw : ChoiceSource.below (children.length + 1) (Nat.succ_pos _) g = (i, g₁))
    (h : visitLeaf c s g = .ok (score, t', g')) :
    ∃ mv below u s', s.board.legalMoves[i.val]? = some mv ∧
      (child :: children)[i] = .leaf (.fresh (s.board.place mv)) ∧
      playout c (s.board.place mv) g₁ = .ok (below, g') ∧
      (Statistic.fresh (s.board.place mv)).record below = .ok u ∧ s.record (-below) = .ok s' ∧
      score = -below ∧ t' = .node s' ((childrenOf s.board).set i (.leaf u)) := by
  obtain ⟨-, -, hchildren⟩ := expansion_eq_cons hgrows
  have hpicked : (childrenOf s.board)[i.val]? = some (child :: children)[i] := by
    rw [hchildren]
    exact List.getElem?_eq_getElem i.isLt
  rw [getElem?_childrenOf] at hpicked
  obtain ⟨mv, hmv, hleaf⟩ := Option.map_eq_some_iff.mp hpicked
  unfold visitLeaf at h
  simp only [hgrows, hdraw, ← hleaf] at h
  obtain ⟨⟨below, g₂⟩, hplayout, h⟩ := bind_eq_ok.mp h
  obtain ⟨u, hu, h⟩ := bind_eq_ok.mp h
  obtain ⟨s', hs, h⟩ := bind_eq_ok.mp h
  cases h
  exact ⟨mv, below, u, s', hmv, hleaf.symm, hplayout, hu, hs, rfl, by rw [hchildren]; rfl⟩

theorem visited_of_visitLeaf (h : visitLeaf c s g = .ok (score, t', g')) :
    Visited G c score (.node s []) t' := by
  cases hexpansion : expansion c s with
  | nil =>
    obtain ⟨s', hplayout, hs, rfl⟩ := visitLeaf_of_nil hexpansion h
    refine .leaf ?_ hplayout hs
    unfold expansion at hexpansion
    split at hexpansion
    · rename_i hstays
      simpa using hstays
    · cases hopen : s.board.isDecided c.terminal with
      | true => exact .inr rfl
      | false =>
        have hmoves := List.map_eq_nil_iff.mp hexpansion
        exact absurd hmoves (legalMoves_ne_nil_of_playout hplayout hopen)
  | cons child children =>
    obtain ⟨hvisits, hopen, -⟩ := expansion_eq_cons hexpansion
    obtain ⟨mv, below, u, s', hmv, -, hplayout, hu, hs, rfl, rfl⟩ := visitLeaf_of_cons hexpansion rfl h
    exact .expanded hvisits hopen hmv hplayout hu hs

/-- A visit at a place of a list is a visit of the tree that stands there. -/
theorem iterateAt_eq_ok (h : iterateAt c select g i ts = .ok (score, ts', g')) :
    ∃ t t', ts[i]? = some t ∧ iterate c select g t = .ok (score, t', g') ∧ ts' = ts.set i t' := by
  induction ts generalizing i ts' with
  | nil =>
    unfold iterateAt at h
    cases h
  | cons t ts ih =>
    cases i with
    | zero =>
      unfold iterateAt at h
      obtain ⟨⟨score₁, t', g₁⟩, hrun, h⟩ := bind_eq_ok.mp h
      cases h
      exact ⟨t, t', rfl, hrun, rfl⟩
    | succ i =>
      unfold iterateAt at h
      obtain ⟨⟨score₁, ts₁, g₁⟩, hrun, h⟩ := bind_eq_ok.mp h
      cases h
      obtain ⟨u, u', hu, hrun', rfl⟩ := ih hrun
      exact ⟨u, u', hu, hrun', rfl⟩

theorem iterate_eq_ok_of_ne_nil (hne : ts ≠ []) (h : iterate c select g (.node s ts) = .ok (score, t', g')) :
    ∃ u u' below s', ts[select s.visits ts]? = some u ∧ iterate c select g u = .ok (below, u', g') ∧
      s.record (-below) = .ok s' ∧ score = -below ∧ t' = .node s' (ts.set (select s.visits ts) u') := by
  obtain ⟨child, children, rfl⟩ := List.exists_cons_of_ne_nil hne
  rw [iterate] at h
  obtain ⟨⟨below, ts', g₁⟩, hrun, h⟩ := bind_eq_ok.mp h
  obtain ⟨s', hs, h⟩ := bind_eq_ok.mp h
  cases h
  obtain ⟨u, u', hu, hrun', rfl⟩ := iterateAt_eq_ok hrun
  exact ⟨u, u', below, s', hu, hrun', hs, rfl, rfl⟩

/-- An iteration is one visit of the tree, whatever child is selected at each node. -/
theorem visited_of_iterate (h : iterate c select g t = .ok (score, t', g')) : Visited G c score t t' := by
  induction t using Tree.node_induction generalizing g score t' g' with
  | node s ts ih =>
    by_cases hne : ts = []
    · subst hne
      rw [iterate] at h
      exact visited_of_visitLeaf h
    · obtain ⟨u, u', below, s', hu, hrun, hs, rfl, rfl⟩ := iterate_eq_ok_of_ne_nil hne h
      exact .child hu (ih u (List.mem_of_getElem? hu) hrun) hs

/-- A tree before and after a visit along a path: the path ends in a leaf, every node on it has one visit
more, and all that is off it has not changed. When the leaf gets its children, one of them is visited
too. -/
structure VisitedAlong (path : List Nat) (t t' : SearchTree V) : Prop where
  leaf : ∃ s, t.subtree? path = some (.leaf s)
  on_path : ∀ p u, p <+: path → t.subtree? p = some u → ∃ u', t'.subtree? p = some u' ∧
    u'.value.board = u.value.board ∧ u'.value.visits = u.value.visits + 1
  off_path : ∀ p u, ¬ p <+: path → t.subtree? p = some u → t'.subtree? p = some u
  below_leaf : ∀ u, t'.subtree? path = some u → u.children = [] ∨ ∃ (i : Nat) (mv : Move) (v : Statistic V),
    u.value.board.legalMoves[i]? = some mv ∧ v.board = u.value.board.place mv ∧ v.visits = 1 ∧
      u.children = (childrenOf u.value.board).set i (.leaf v)

namespace VisitedAlong

variable {s' : Statistic V} {path : List Nat}

theorem of_leaf (hs : s'.board = s.board ∧ s'.visits = s.visits + 1)
    (hts : ts = [] ∨ ∃ (i : Nat) (mv : Move) (v : Statistic V), s'.board.legalMoves[i]? = some mv ∧
      v.board = s'.board.place mv ∧ v.visits = 1 ∧ ts = (childrenOf s'.board).set i (.leaf v)) :
    VisitedAlong [] (.leaf s) (.node s' ts) where
  leaf := ⟨s, rfl⟩
  on_path p u hp hu := by
    obtain rfl := List.prefix_nil.mp hp
    obtain rfl := Option.some.inj hu
    exact ⟨_, rfl, hs⟩
  off_path p u hp hu := by
    cases p with
    | nil => exact absurd List.nil_prefix hp
    | cons i p => simp [Tree.subtree?_cons] at hu
  below_leaf u hu := by
    obtain rfl := Option.some.inj hu
    exact hts

theorem child (h : VisitedAlong path t t') (hi : ts[i]? = some t)
    (hs : s'.board = s.board ∧ s'.visits = s.visits + 1) :
    VisitedAlong (i :: path) (.node s ts) (.node s' (ts.set i t')) := by
  have hlt := (List.getElem?_eq_some_iff.mp hi).1
  have hold : ∀ p, (Tree.node s ts).subtree? (i :: p) = t.subtree? p := fun p => by
    simp [Tree.subtree?_cons, hi]
  have hnew : ∀ p, (Tree.node s' (ts.set i t')).subtree? (i :: p) = t'.subtree? p := fun p => by
    simp [Tree.subtree?_cons, hlt]
  refine ⟨?_, fun p u hp hu => ?_, fun p u hp hu => ?_, fun u hu => ?_⟩
  · rw [hold]
    exact h.leaf
  · cases p with
    | nil =>
      obtain rfl := Option.some.inj hu
      exact ⟨_, rfl, hs⟩
    | cons j p =>
      obtain ⟨rfl, hprefix⟩ := List.cons_prefix_cons.mp hp
      rw [hold] at hu
      rw [hnew]
      exact h.on_path p u hprefix hu
  · cases p with
    | nil => exact absurd List.nil_prefix hp
    | cons j p =>
      by_cases hij : i = j
      · subst hij
        rw [hold] at hu
        rw [hnew]
        exact h.off_path p u (fun hpath => hp (List.cons_prefix_cons.mpr ⟨rfl, hpath⟩)) hu
      · rw [Tree.subtree?_cons, Tree.children_node, List.getElem?_set_ne hij]
        rwa [Tree.subtree?_cons] at hu
  · rw [hnew] at hu
    exact h.below_leaf u hu

end VisitedAlong

namespace Visited

theorem value (h : Visited G c score t t') :
    t'.value.board = t.value.board ∧ t'.value.visits = t.value.visits + 1 := by
  cases h with
  | leaf _ _ hs => exact record_eq_ok hs
  | expanded _ _ _ _ _ hs => exact record_eq_ok hs
  | child _ _ hs => exact record_eq_ok hs

theorem visits_lt (h : Visited G c score t t') : t.value.visits < Statistic.maxVisits := by
  cases h with
  | leaf _ _ hs => exact visits_lt_of_record hs
  | expanded _ _ _ _ _ hs => exact visits_lt_of_record hs
  | child _ _ hs => exact visits_lt_of_record hs

theorem exists_path (h : Visited G c score t t') : ∃ path, VisitedAlong path t t' := by
  induction h with
  | leaf _ _ hs => exact ⟨[], .of_leaf (record_eq_ok hs) (.inl rfl)⟩
  | @expanded s s' u g g' score i mv _ _ hi _ hu hs =>
    obtain ⟨hboard, hvisits⟩ := record_eq_ok hs
    obtain ⟨hboard', hvisits'⟩ := record_eq_ok hu
    exact ⟨[], .of_leaf ⟨hboard, hvisits⟩ (.inr ⟨i, mv, u, hboard ▸ hi, hboard ▸ hboard', hvisits', hboard ▸ rfl⟩)⟩
  | @child s s' ts t t' score i hi _ hs ih =>
    obtain ⟨path, hpath⟩ := ih
    exact ⟨i :: path, hpath.child hi (record_eq_ok hs)⟩

end Visited

end MonteCarlo
end HexGame
