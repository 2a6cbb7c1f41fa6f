import HexGame.Proofs.MonteCarlo.BestMove

/-!
# Going on with a game

When both players have moved, a search goes on with the grandchild of its root that shows the new position, if
it has one. It has at most one: a position tells the two moves apart by their colours (`eq_of_two_moves`), and
each move leads to one child. So the whole subtree of these moves is kept, and where the tree has not been
expanded for both of them the search starts again.
-/
namespace HexGame

namespace Board

variable {b b' : Board} {c : Cell} {m₁ m₂ n₁ n₂ : Move}

theorem colorAt_two_moves (h₁ : m₁ ∈ b.legalMoves) (h₂ : m₂ ∈ (b.place m₁).legalMoves) :
    ((b.place m₁).place m₂).colorAt c =
      if c = m₂.cell then some b.lastMover else if c = m₁.cell then some b.toMove else b.colorAt c := by
  obtain ⟨he₁, hcolor₁⟩ := mem_legalMoves.mp h₁
  obtain ⟨he₂, hcolor₂⟩ := mem_legalMoves.mp h₂
  rw [colorAt_place he₂, colorAt_place he₁, hcolor₂, hcolor₁, toMove_place_of_mem h₁]

theorem eq_of_two_moves (h₁ : m₁ ∈ b.legalMoves) (h₂ : m₂ ∈ (b.place m₁).legalMoves)
    (h₁' : n₁ ∈ b.legalMoves) (h₂' : n₂ ∈ (b.place n₁).legalMoves)
    (hkey : ((b.place m₁).place m₂).key = ((b.place n₁).place n₂).key) : m₁ = n₁ ∧ m₂ = n₂ := by
  obtain ⟨he₁, hcolor₁⟩ := mem_legalMoves.mp h₁
  obtain ⟨he₂, hcolor₂⟩ := mem_legalMoves.mp h₂
  obtain ⟨-, hcolor₁'⟩ := mem_legalMoves.mp h₁'
  obtain ⟨-, hcolor₂'⟩ := mem_legalMoves.mp h₂'
  obtain ⟨hne, he₂⟩ := (isEmptyAt_place he₁).mp he₂
  have hnone₁ := (isEmptyAt_iff.mp he₁).2
  have hnone₂ := (isEmptyAt_iff.mp he₂).2
  have hplayers : b.lastMover ≠ b.toMove := (Color.opponent_ne b.lastMover).symm
  have hsame (c : Cell) := colorAt_eq_of_key (c := c) hkey
  simp only [colorAt_two_moves h₁ h₂, colorAt_two_moves h₁' h₂'] at hsame
  have hcell₁ : m₁.cell = n₁.cell := by
    have h := hsame m₁.cell
    rw [if_neg hne.symm, if_pos rfl, hnone₁] at h
    split at h
    · exact absurd (Option.some.inj h).symm hplayers
    · split at h
      · assumption
      · cases h
  have hcell₂ : m₂.cell = n₂.cell := by
    have h := hsame m₂.cell
    rw [if_pos rfl, hnone₂] at h
    split at h
    · assumption
    · split at h
      · exact absurd (Option.some.inj h) hplayers
      · cases h
  rw [toMove_place_of_mem h₁] at hcolor₂
  rw [toMove_place_of_mem h₁'] at hcolor₂'
  exact ⟨congrArg₂ Move.mk hcell₁ (hcolor₁.trans hcolor₁'.symm),
    congrArg₂ Move.mk hcell₂ (hcolor₂.trans hcolor₂'.symm)⟩

end Board

namespace MonteCarlo

variable {V : Type} {c : Config V} {t u v : SearchTree V} {i j : Nat} {b : Board}

namespace Accounted

theorem board_of_child (h : Accounted c t) (hu : t.children[i]? = some u) :
    ∃ m, t.value.board.legalMoves[i]? = some m ∧ u.value.board = t.value.board.place m := by
  have hboards := congrArg (·[i]?) (h.boards (List.ne_nil_of_mem (List.mem_of_getElem? hu)))
  simp only [List.getElem?_map, hu, Option.map_some] at hboards
  obtain ⟨m, hm, hplace⟩ := Option.map_eq_some_iff.mp hboards.symm
  exact ⟨m, hm, hplace.symm⟩

theorem exists_child {m : Move} (h : Accounted c t) (hne : t.children ≠ []) (hm : m ∈ t.value.board.legalMoves) :
    ∃ u ∈ t.children, u.value.board = t.value.board.place m := by
  have hboard := List.mem_map_of_mem (f := t.value.board.place) hm
  rw [← h.boards hne] at hboard
  exact List.mem_map.mp hboard

/-- A node of an open game that has had enough visits has been expanded. -/
theorem children_ne_nil (h : Accounted c t) (hopen : t.value.board.isDecided c.terminal = false)
    (hmany : max 1 c.expandThreshold < t.value.visits) : t.children ≠ [] :=
  fun hnil => Nat.not_lt.mpr (h.leaf hnil hopen) hmany

theorem length_children (h : Accounted c t) (hne : t.children ≠ []) :
    t.children.length = t.value.board.legalMoves.length := by
  rw [← List.length_map (·.value.board), h.boards hne, List.length_map]

end Accounted

theorem exists_lt_visits {ts : List (SearchTree V)} {n : Nat} (h : ts.length * n < visitsOf ts) :
    ∃ t ∈ ts, n < t.value.visits := by
  by_contra hnone
  simp only [not_exists, not_and, Nat.not_lt] at hnone
  have hsum := List.sum_le_card_nsmul (ts.map (·.value.visits)) n (by simpa using hnone)
  rw [List.length_map, smul_eq_mul] at hsum
  exact absurd h (Nat.not_lt.mpr hsum)

theorem subtree?_pair : t.subtree? [i, j] = some v ↔ ∃ u, t.children[i]? = some u ∧ u.children[j]? = some v := by
  simp [Tree.subtree?_cons, Option.bind_eq_some_iff]

theorem mem_grandchildren : v ∈ t.children.flatMap Tree.children ↔ ∃ i j, t.subtree? [i, j] = some v := by
  simp only [List.mem_flatMap, subtree?_pair]
  constructor
  · rintro ⟨u, hu, hv⟩
    obtain ⟨i, hi⟩ := List.mem_iff_getElem?.mp hu
    obtain ⟨j, hj⟩ := List.mem_iff_getElem?.mp hv
    exact ⟨i, j, u, hi, hj⟩
  · rintro ⟨i, j, u, hi, hj⟩
    exact ⟨u, List.mem_of_getElem? hi, List.mem_of_getElem? hj⟩

theorem board_of_grandchild (ht : t.Everywhere (Accounted c)) (hv : t.subtree? [i, j] = some v) :
    ∃ m₁ m₂, t.value.board.legalMoves[i]? = some m₁ ∧ (t.value.board.place m₁).legalMoves[j]? = some m₂ ∧
      v.value.board = (t.value.board.place m₁).place m₂ := by
  obtain ⟨u, hu, hv⟩ := subtree?_pair.mp hv
  obtain ⟨m₁, hm₁, hboard⟩ := ht.here.board_of_child hu
  obtain ⟨m₂, hm₂, hboard'⟩ := (ht.children u (List.mem_of_getElem? hu)).here.board_of_child hv
  rw [hboard] at hm₂ hboard'
  exact ⟨m₁, m₂, hm₁, hm₂, hboard'⟩

theorem place_eq_of_samePosition {p q : List Nat} (ht : t.Everywhere (Accounted c)) (hp : p.length = 2)
    (hq : q.length = 2) (hu : t.subtree? p = some u) (hv : t.subtree? q = some v)
    (hub : u.value.board.samePosition b = true) (hvb : v.value.board.samePosition b = true) : p = q := by
  obtain ⟨i, j, rfl⟩ := List.length_eq_two.mp hp
  obtain ⟨i', j', rfl⟩ := List.length_eq_two.mp hq
  obtain ⟨m₁, m₂, hm₁, hm₂, hboard⟩ := board_of_grandchild ht hu
  obtain ⟨n₁, n₂, hn₁, hn₂, hboard'⟩ := board_of_grandchild ht hv
  have hkey := (Board.samePosition_iff.mp hub).trans (Board.samePosition_iff.mp hvb).symm
  rw [hboard, hboard'] at hkey
  obtain ⟨rfl, rfl⟩ := Board.eq_of_two_moves (List.mem_of_getElem? hm₁) (List.mem_of_getElem? hm₂)
    (List.mem_of_getElem? hn₁) (List.mem_of_getElem? hn₂) hkey
  obtain ⟨hi, -⟩ := List.getElem?_eq_some_iff.mp hm₁
  obtain ⟨hj, -⟩ := List.getElem?_eq_some_iff.mp hm₂
  rw [(List.getElem?_inj hi (Board.nodup_legalMoves _)).mp (hm₁.trans hn₁.symm),
    (List.getElem?_inj hj (Board.nodup_legalMoves _)).mp (hm₂.trans hn₂.symm)]

/-- Two moves from the root lead to the position of a board, and the tree has been expanded for both of them;
`u` is the child after the first one. -/
structure Foreseen (t : SearchTree V) (b : Board) (m₁ m₂ : Move) (u : SearchTree V) : Prop where
  shown : ∃ b₂, t.value.board.playAll [m₁, m₂] = .ok b₂ ∧ b₂.samePosition b = true
  child : u ∈ t.children
  first : t.value.board.tryPlay m₁ = .ok u.value.board
  expanded : u.children ≠ []

namespace Foreseen

variable {m₁ m₂ : Move}

theorem exists_grandchild (h : Foreseen t b m₁ m₂ u) (ht : t.Everywhere (Accounted c)) :
    ∃ v ∈ u.children, u.value.board.tryPlay m₂ = .ok v.value.board ∧ v.value.board.samePosition b = true := by
  obtain ⟨b₂, hplay, hsame⟩ := h.shown
  obtain ⟨-, hboard⟩ := Board.tryPlay_eq_ok_iff.mp h.first
  obtain ⟨-, hplay⟩ := Board.playAll_cons.mp hplay
  rw [← hboard] at hplay
  obtain ⟨hm₂, hplay⟩ := Board.playAll_cons.mp hplay
  obtain rfl := Except.ok.inj hplay
  obtain ⟨v, hv, hvboard⟩ := (ht.children u h.child).here.exists_child h.expanded hm₂
  rw [← hvboard] at hsame
  exact ⟨v, hv, Board.tryPlay_eq_ok_iff.mpr ⟨hm₂, hvboard⟩, hsame⟩

/-- A grandchild that shows the position stands after two moves that the tree has been expanded for. -/
theorem of_grandchild (ht : t.Everywhere (Accounted c)) (hv : t.subtree? [i, j] = some v)
    (hsame : v.value.board.samePosition b = true) : ∃ m₁ m₂ u, Foreseen t b m₁ m₂ u := by
  obtain ⟨m₁, m₂, hm₁, hm₂, hboard⟩ := board_of_grandchild ht hv
  obtain ⟨u, hu, hv⟩ := subtree?_pair.mp hv
  obtain ⟨m, hm, hboard'⟩ := ht.here.board_of_child hu
  obtain rfl := Option.some.inj (hm₁.symm.trans hm)
  have hm₁ := List.mem_of_getElem? hm₁
  have hm₂ := List.mem_of_getElem? hm₂
  refine ⟨m₁, m₂, u, ⟨_, ?_, hboard ▸ hsame⟩, List.mem_of_getElem? hu,
    Board.tryPlay_eq_ok_iff.mpr ⟨hm₁, hboard'⟩, List.ne_nil_of_mem (List.mem_of_getElem? hv)⟩
  exact Board.playAll_cons.mpr ⟨hm₁, Board.playAll_cons.mpr ⟨hm₂, rfl⟩⟩

end Foreseen

namespace Search

variable {G : Type} {s : Search G} {c : Config Float} {t u : SearchTree Float}

/-- A search goes on with a grandchild that shows the position, or with a new leaf if there is none. -/
theorem continueFrom_cases (s : Search G) (b : Board) :
    (∃ i j, s.root.subtree? [i, j] = some (s.continueFrom b).root ∧
      (s.continueFrom b).root.value.board.samePosition b = true) ∨
    ((s.continueFrom b).root = .leaf (.fresh b) ∧
      ∀ i j t, s.root.subtree? [i, j] = some t → t.value.board.samePosition b = false) := by
  unfold continueFrom
  simp only
  split
  · rename_i t ht
    obtain ⟨i, j, hplace⟩ := mem_grandchildren.mp (List.mem_of_find?_eq_some ht)
    have hsame := List.find?_some ht
    exact .inl ⟨i, j, hplace, hsame⟩
  · rename_i hnone
    refine .inr ⟨rfl, fun i j t ht => ?_⟩
    simpa using List.find?_eq_none.mp hnone t (mem_grandchildren.mpr ⟨i, j, ht⟩)

theorem continueFrom_of_foreseen {m₁ m₂ : Move} (hs : s.root.Everywhere (Accounted c))
    (h : Foreseen s.root b m₁ m₂ u) :
    ∃ t ∈ u.children, u.value.board.tryPlay m₂ = .ok t.value.board ∧ (s.continueFrom b).root = t := by
  obtain ⟨t, ht, hplay, hsame⟩ := h.exists_grandchild hs
  obtain ⟨i, j, hplace⟩ := mem_grandchildren.mp (List.mem_flatMap.mpr ⟨u, h.child, ht⟩)
  refine ⟨t, ht, hplay, ?_⟩
  rcases continueFrom_cases s b with ⟨i', j', hplace', hsame'⟩ | ⟨-, hnone⟩
  · rw [← place_eq_of_samePosition hs rfl rfl hplace hplace' hsame hsame', hplace] at hplace'
    exact (Option.some.inj hplace').symm
  · exact absurd hsame (by rw [hnone i j t hplace]; exact Bool.false_ne_true)

theorem continueFrom_of_not_foreseen (hs : s.root.Everywhere (Accounted c))
    (hnone : ¬ ∃ m₁ m₂ u, Foreseen s.root b m₁ m₂ u) : (s.continueFrom b).root = .leaf (.fresh b) := by
  rcases continueFrom_cases s b with ⟨i, j, hplace, hsame⟩ | ⟨hroot, -⟩
  · exact absurd (Foreseen.of_grandchild hs hplace hsame) hnone
  · exact hroot

/-- A search that goes on from a board keeps its configuration and counts its iterations from zero. If two moves
lead to the position of the board and the tree has been expanded for both of them, its root is their grandchild
with all that is below it, the only one that shows the position; else it is a leaf without visits. However long
it then runs, its best move is legal on the board. -/
theorem continueFrom_keeps_subtree [ChoiceSource G] (h : s.Reachable c) (b : Board) :
    (s.continueFrom b).config = s.config ∧ (s.continueFrom b).iterations = 0 ∧
    (∀ m₁ m₂ u, Foreseen s.root b m₁ m₂ u →
      ∃ t ∈ u.children, u.value.board.tryPlay m₂ = .ok t.value.board ∧ (s.continueFrom b).root = t) ∧
    (∀ p q t u, p.length = 2 → q.length = 2 → s.root.subtree? p = some t → s.root.subtree? q = some u →
      t.value.board.samePosition b = true → u.value.board.samePosition b = true → p = q) ∧
    ((¬ ∃ m₁ m₂ u, Foreseen s.root b m₁ m₂ u) → (s.continueFrom b).root = .leaf (.fresh b)) ∧
    ∀ n s', (s.continueFrom b).iterateTimes n = .ok s' → ∀ mv ∈ s'.bestMove, mv ∈ b.legalMoves := by
  have hs := h.accounted
  refine ⟨(continueFrom_root s b).1, ?_, fun m₁ m₂ u => continueFrom_of_foreseen hs,
    fun p q t u => place_eq_of_samePosition hs, continueFrom_of_not_foreseen hs, fun n s' hrun mv hmv => ?_⟩
  · unfold continueFrom
    simp only
    split <;> rfl
  · have hlegal := bestMove_legal ((h.continueFrom b).iterateTimes hrun) hmv
    rwa [iterateTimes_board hrun, Board.legalMoves_eq_of_key (continueFrom_key s b)] at hlegal

/-- Leaves are expanded at once. -/
def eager : Config Float := { Config.default with expandThreshold := 0 }

/-- After ten visits of a board of four cells one of the first moves has been visited twice, so that the tree
has been expanded for it and for its answers. -/
theorem continueFrom_keeps_subtree_fourCells :
    ∃ (s : Search Generator) (b : Board) (m₁ m₂ : Move) (u : SearchTree Float), s.Reachable eager ∧
      Foreseen s.root b m₁ m₂ u ∧ (s.continueFrom b).root ∈ u.children ∧ (s.continueFrom b).config = eager ∧
      ∀ mv ∈ (s.continueFrom b).bestMove, mv ∈ b.legalMoves := by
  let b₀ : Board := .blank 2 .red two_le_maxSize
  have hfirst : ∀ m ∈ b₀.legalMoves, (b₀.place m).isDecided .strict = false ∧ (b₀.place m).legalMoves ≠ [] := by
    decide +kernel
  have hplay : b₀.Playable := fun hfull => absurd hfull (by decide +kernel)
  obtain ⟨s, hrun, -, hvisits⟩ := iterateTimes_spec (s := Search.start b₀ eager (Generator.ofSeed 1)) (n := 10)
    (grown_fresh hplay 0) (by decide)
  have hs : s.Reachable eager := (Reachable.start _ _).iterateTimes hrun
  have hboard : s.root.value.board = b₀ := iterateTimes_board hrun
  have hten : s.root.value.visits = 10 := hvisits
  have hroot := hs.accounted.here
  have hne : s.root.children ≠ [] := by
    apply hroot.children_ne_nil
    · rw [hboard]
      decide +kernel
    · rw [hten]
      decide
  have hlength : s.root.children.length = 4 := by
    rw [hroot.length_children hne, hboard]
    decide +kernel
  obtain ⟨u, hu, htwice⟩ : ∃ u ∈ s.root.children, 1 < u.value.visits := by
    have hcount : s.root.value.visits ≤ 1 + visitsOf s.root.children := (hroot.inner hne).2
    exact exists_lt_visits (by omega)
  obtain ⟨i, hi⟩ := List.mem_iff_getElem?.mp hu
  obtain ⟨m₁, hm₁, huboard⟩ := hroot.board_of_child hi
  have hm₁ := List.mem_of_getElem? hm₁
  obtain ⟨hopen, hmoves⟩ := hfirst m₁ (hboard ▸ hm₁)
  rw [← hboard, ← huboard] at hopen hmoves
  obtain ⟨m₂, hm₂⟩ := List.exists_mem_of_ne_nil _ hmoves
  have hforeseen : Foreseen s.root (u.value.board.place m₂) m₁ m₂ u := by
    refine ⟨⟨_, Board.playAll_cons.mpr ⟨hm₁, Board.playAll_cons.mpr ⟨huboard ▸ hm₂, rfl⟩⟩, ?_⟩, hu,
      Board.tryPlay_eq_ok_iff.mpr ⟨hm₁, huboard⟩, ?_⟩
    · rw [huboard]
      simp [Board.samePosition]
    · exact (hs.accounted.children u hu).here.children_ne_nil hopen htwice
  obtain ⟨hconfig, -, hkeeps, -, -, hlegal⟩ := continueFrom_keeps_subtree hs (u.value.board.place m₂)
  obtain ⟨t, ht, -, hcontinued⟩ := hkeeps m₁ m₂ u hforeseen
  exact ⟨s, _, m₁, m₂, u, hs, hforeseen, hcontinued ▸ ht, hconfig.trans hs.config_eq, hlegal 0 _ rfl⟩

end Search

end MonteCarlo
end HexGame
