import HexGame.Proofs.MonteCarlo.Playout

/-!
# Iterations

A tree grows from a playable board by iterations. All its boards stay playable, and no node has more visits
than there were iterations (`Grown`). So no playout fails, and no count of visits overflows before there is
no room for more visits of the root.
-/
namespace HexGame

inductive Tree.All {α : Type} (P : α → Prop) : Tree α → Prop where
  | node {a : α} {ts : List (Tree α)} (ha : P a) (hts : ∀ t ∈ ts, Tree.All P t) : Tree.All P (.node a ts)

namespace Tree.All

variable {α : Type} {P Q : α → Prop} {t : Tree α}

theorem value (h : All P t) : P t.value := by
  cases h with
  | node ha _ => exact ha

theorem children (h : All P t) : ∀ u ∈ t.children, All P u := by
  cases h with
  | node _ hts => exact hts

theorem imp (hPQ : ∀ a, P a → Q a) (h : All P t) : All Q t := by
  induction h with
  | node ha _ ih => exact .node (hPQ _ ha) ih

end Tree.All

namespace MonteCarlo

variable {G : Type} [ChoiceSource G] {c : Config Float} {b : Board} {g g' : G} {n k i : Nat}
variable {s : Statistic Float} {t : SearchTree Float} {ts : List (SearchTree Float)}
variable {select : Selection Float}

/-- All boards of a tree are playable, and no node has more than `n` visits. -/
def Grown (n : Nat) (t : SearchTree Float) : Prop := t.All fun s => s.board.Playable ∧ s.visits ≤ n

theorem Grown.mono (hn : n ≤ k) (h : Grown n t) : Grown k t :=
  h.imp fun _ hs => ⟨hs.1, Nat.le_trans hs.2 hn⟩

theorem grown_fresh (h : b.Playable) (n : Nat) : Grown n (.leaf (.fresh b)) :=
  .node ⟨h, Nat.zero_le n⟩ (by simp)

/-- A visit of a tree that has had `n` visits. -/
def Visits (n : Nat) (t : SearchTree Float) (r : Except Fault (Float × SearchTree Float × G)) : Prop :=
  ∃ score t' g', r = .ok (score, t', g') ∧ Grown (n + 1) t' ∧ t'.value.visits = t.value.visits + 1

theorem record_eq (h : s.visits < Statistic.maxVisits) (score : Float) :
    ∃ s', s.record score = .ok s' ∧ s'.board = s.board ∧ s'.visits = s.visits + 1 := by
  unfold Statistic.record
  rw [if_pos h]
  exact ⟨_, rfl, rfl, rfl⟩

theorem expansion_spec (h : t ∈ expansion c s) : Grown 0 t := by
  unfold expansion at h
  split at h
  · simp at h
  · rename_i hopen
    simp only [Bool.or_eq_true, decide_eq_true_eq, not_or, Bool.not_eq_true] at hopen
    obtain ⟨mv, hmv, rfl⟩ := List.mem_map.mp h
    exact grown_fresh (Board.Playable.place hopen.2 hmv) 0

theorem visitLeaf_spec (hs : s.board.Playable) (hvisits : s.visits ≤ n) (hn : n < Statistic.maxVisits)
    (g : G) : Visits n (.leaf s) (visitLeaf c s g) := by
  cases hchildren : expansion c s with
  | nil =>
    obtain ⟨score, -, -, g', hrun, -⟩ := playout_spec c hs g
    obtain ⟨s', hrecord, hboard, hcount⟩ := record_eq (Nat.lt_of_le_of_lt hvisits hn) score
    refine ⟨score, .leaf s', g', ?_, .node ⟨hboard ▸ hs, by omega⟩ (by simp), hcount⟩
    simp only [visitLeaf, hchildren, hrun, hrecord, bind, Except.bind, pure, Except.pure]
  | cons child children =>
    obtain ⟨i, g₁, hdraw⟩ := exists_draw (Nat.succ_pos children.length) g
    have hgrown : ∀ t ∈ child :: children, Grown 0 t := fun t ht => expansion_spec (hchildren ▸ ht)
    have hpicked := hgrown (child :: children)[i] (List.getElem_mem i.isLt)
    obtain ⟨score, -, -, g', hrun, -⟩ := playout_spec c hpicked.value.1 g₁
    obtain ⟨p, hp, hpboard, hpcount⟩ := record_eq (Nat.lt_of_le_of_lt hpicked.value.2 (by decide)) score
    obtain ⟨s', hrecord, hboard, hcount⟩ := record_eq (Nat.lt_of_le_of_lt hvisits hn) (-score)
    refine ⟨-score, .node s' ((child :: children).set i (.node p (child :: children)[i].children)), g', ?_,
      .node ⟨hboard ▸ hs, by omega⟩ fun t ht => ?_, hcount⟩
    · simp only [visitLeaf, hchildren, hdraw, hrun, hp, hrecord, bind, Except.bind, pure, Except.pure]
    · rcases List.mem_or_eq_of_mem_set ht with ht | rfl
      · exact (hgrown t ht).mono (Nat.zero_le _)
      · have hvisits := hpicked.value.2
        exact .node ⟨hpboard ▸ hpicked.value.1, by omega⟩ fun u hu =>
          Grown.mono (Nat.zero_le _) (hpicked.children u hu)

theorem iterateAt_spec (hts : ∀ t ∈ ts, Grown n t)
    (ih : ∀ t ∈ ts, ∀ g : G, Visits n t (iterate c select g t)) (hi : i < ts.length) (g : G) :
    ∃ score ts' g', iterateAt c select g i ts = .ok (score, ts', g') ∧ ∀ t ∈ ts', Grown (n + 1) t := by
  induction ts generalizing i with
  | nil => simp at hi
  | cons t ts ihts =>
    cases i with
    | zero =>
      obtain ⟨score, t', g', hrun, ht', -⟩ := ih t (by simp) g
      refine ⟨score, t' :: ts, g', ?_, ?_⟩
      · simp only [iterateAt, hrun, bind, Except.bind, pure, Except.pure]
      · intro u hu
        rcases List.mem_cons.mp hu with rfl | hu
        · exact ht'
        · exact (hts u (by simp [hu])).mono (Nat.le_succ n)
    | succ i =>
      obtain ⟨score, ts', g', hrun, hts'⟩ := ihts (fun t ht => hts t (by simp [ht]))
        (fun t ht => ih t (by simp [ht])) (Nat.lt_of_succ_lt_succ hi)
      refine ⟨score, t :: ts', g', ?_, ?_⟩
      · simp only [iterateAt, hrun, bind, Except.bind, pure, Except.pure]
      · intro u hu
        rcases List.mem_cons.mp hu with rfl | hu
        · exact (hts _ (by simp)).mono (Nat.le_succ n)
        · exact hts' u hu

/-- An iteration does not fail as long as the choice of a child stays within the list. -/
theorem iterate_spec (hselect : ∀ visits ts, ts ≠ [] → select visits ts < ts.length) (ht : Grown n t)
    (hn : n < Statistic.maxVisits) (g : G) : Visits n t (iterate c select g t) := by
  induction ht generalizing g with
  | @node s ts hs hts ih =>
    cases ts with
    | nil =>
      rw [iterate]
      exact visitLeaf_spec hs.1 hs.2 hn g
    | cons child children =>
      obtain ⟨score, ts', g', hrun, hts'⟩ := iterateAt_spec hts ih
        (hselect s.visits _ (List.cons_ne_nil child children)) g
      obtain ⟨s', hrecord, hboard, hcount⟩ := record_eq (Nat.lt_of_le_of_lt hs.2 hn) (-score)
      refine ⟨-score, .node s' ts', g', ?_, .node ⟨hboard ▸ hs.1, by omega⟩ hts', hcount⟩
      simp only [iterate, hrun, hrecord, bind, Except.bind, pure, Except.pure]

/-! ## The choice of a child -/

theorem firstLargest_lt {V : Type} [GameValue V] {i best m : Nat} {value : V} {vs : List V} (hbest : best < m)
    (hm : i + vs.length ≤ m) : firstLargest i best value vs < m := by
  induction vs generalizing i best value with
  | nil => exact hbest
  | cons v vs ih =>
    simp only [List.length_cons] at hm
    unfold firstLargest
    split
    · exact ih (by omega) (by omega)
    · exact ih hbest (by omega)

theorem mostUrgent_lt (exploration : Float) (visits : Nat) (hts : ts ≠ []) :
    mostUrgent exploration visits ts < ts.length :=
  firstLargest_lt (List.length_pos_iff.mpr hts) (by simp)

/-! ## Searches -/

namespace Search

theorem iterateTimes_spec {s : Search G} (h : Grown k s.root) (hn : k + n ≤ Statistic.maxVisits) :
    ∃ s', s.iterateTimes n = .ok s' ∧ Grown (k + n) s'.root ∧
      s'.root.value.visits = s.root.value.visits + n := by
  induction n generalizing k s with
  | zero => exact ⟨s, rfl, h, rfl⟩
  | succ n ih =>
    obtain ⟨score, root, source, hrun, hroot, hcount⟩ := iterate_spec (c := s.config)
      (fun visits _ => mostUrgent_lt s.config.exploration visits) h (by omega) s.source
    obtain ⟨s', hrest, hs', hvisits⟩ :=
      ih (s := { s with root, source, iterations := s.iterations + 1 }) hroot (by omega)
    refine ⟨s', ?_, (by rwa [Nat.add_right_comm] at hs'), ?_⟩
    · simp only [iterateTimes, iterate, hrun, hrest, bind, Except.bind, pure, Except.pure]
    · rw [hvisits]
      simp only [hcount]
      omega

end Search

/-- On a playable board neither a playout nor an iteration fails, whatever is drawn. -/
theorem search_never_stuck (c : Config Float) (b : Board) (g : G) (h : b.Playable) :
    (∃ score k b' g', playout c b g = .ok (score, g') ∧ RandomGame c.terminal b g k b' g' ∧
      k ≤ b.emptyCells ∧ b'.isConnected b'.lastMover c.terminal = true ∧
      (b'.lastMover = b.lastMover → 0 < score) ∧ (b'.lastMover = b.lastMover.opponent → score < 0)) ∧
    ∀ n ≤ Statistic.maxVisits, ∃ s, (Search.start b c g).iterateTimes n = .ok s ∧ s.root.value.visits = n := by
  refine ⟨playout_spec c h g, fun n hn => ?_⟩
  obtain ⟨s, hrun, -, hvisits⟩ := Search.iterateTimes_spec (s := Search.start b c g) (n := n)
    (grown_fresh h 0) (by omega)
  exact ⟨s, hrun, by rw [hvisits]; exact Nat.zero_add n⟩

/-- A board on which red, who is to move, has a chain already. -/
def chainToMove : Board :=
  (((Board.blank 2 .red two_le_maxSize).place ⟨⟨0, 0⟩, .red⟩).place ⟨⟨0, 1⟩, .red⟩).place ⟨⟨1, 1⟩, .blue⟩

theorem search_never_stuck_chainToMove :
    chainToMove.Playable ∧ chainToMove.isConnected .red .strict = true ∧ chainToMove.toMove = .red ∧
      (∃ score g', playout Config.default chainToMove (Generator.ofSeed 1) = .ok (score, g')) ∧
      ∃ s, (Search.start chainToMove Config.default (Generator.ofSeed 1)).iterateTimes 20 = .ok s := by
  have hplay : chainToMove.Playable := by
    intro hfull
    exact absurd hfull (by decide +kernel)
  obtain ⟨⟨score, -, -, g', hrun, -⟩, hiterate⟩ :=
    search_never_stuck Config.default chainToMove (Generator.ofSeed 1) hplay
  obtain ⟨s, hs, -⟩ := hiterate 20 (by decide)
  exact ⟨hplay, by decide +kernel, rfl, ⟨score, g', hrun⟩, s, hs⟩

end MonteCarlo
end HexGame
