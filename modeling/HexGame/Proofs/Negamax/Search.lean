import HexGame.Negamax.Deepening
import HexGame.Proofs.Negamax.Moves

/-!
# The search with a window

By induction on the plies every visit finds a value that fits its window and leaves a sound table
(`searches_visit`): what is known of a position on entry, of its moves and of what is stored at the end
is put together from the lemmas on windows and moves.
-/
namespace HexGame
namespace Negamax

variable {V : Type} [GameValue V] {R : Ranking V} {score : Board → V} {s : Setting V}
variable {b b₀ : Board} {depth j n : Nat} {p : Progress V} {alpha beta alpha' beta' : V}
variable {recurse : Board → V → V → Progress V → Except Interruption (Scored V × Progress V)}

/-- The search `recurse` of the positions `j` plies ahead finds values that fit their windows. -/
def Searches (R : Ranking V) (score : Board → V) (b₀ : Board) (depth j n : Nat)
    (recurse : Board → V → V → Progress V → Except Interruption (Scored V × Progress V)) : Prop :=
  ∀ b alpha beta p, Ahead b₀ j b → R.IsNumber alpha → R.IsNumber beta →
    R.rank alpha < R.rank beta → Sound R score b₀ depth p.table →
    ∃ r p', recurse b alpha beta p = .ok (r, p') ∧ R.IsNumber r.value ∧
      Fits (R.rank alpha) (R.rank beta) (R.rank r.value) (R.rank (plainValue score n b)) ∧
      Sound R score b₀ depth p'.table

/-- The moves of every position are found, in some order. -/
def OrdersMoves (s : Setting V) : Prop :=
  ∀ b, ∃ moves, s.orderedMoves b = .ok moves ∧ moves.Perm b.legalMoves

theorem mapError_ok {α ε ε' : Type} (f : ε → ε') (x : α) : (Except.ok x).mapError f = .ok x := rfl

omit [GameValue V] in
theorem check_never : p.check .never = .ok { p with checks := p.checks + 1 } := rfl

/-- A position is closed on entry with a value that fits, or opened with a window that loses nothing. -/
theorem enter_spec (hs : Scores R s.evaluate score b₀ depth) (hnever : s.deadline = .never)
    (hb : Ahead b₀ j b) (hn : j + n = depth) (ha : R.IsNumber alpha) (hbeta : R.IsNumber beta)
    (hlt : R.rank alpha < R.rank beta) (hp : Sound R score b₀ depth p.table) :
    (∃ r p', enter s b alpha beta p = .ok (.closed r p') ∧ R.IsNumber r.value ∧
        Fits (R.rank alpha) (R.rank beta) (R.rank r.value) (R.rank (plainValue score n b)) ∧
        Sound R score b₀ depth p'.table) ∨
      ∃ alpha' beta' p', enter s b alpha beta p = .ok (.opened alpha' beta' p') ∧
        b.isDecided .strict = false ∧ R.IsNumber alpha' ∧ R.IsNumber beta' ∧
        R.rank alpha' < R.rank beta' ∧ Sound R score b₀ depth p'.table ∧
        ∀ v, Fits (R.rank alpha') (R.rank beta') v (R.rank (plainValue score n b)) →
          Fits (R.rank alpha) (R.rank beta) v (R.rank (plainValue score n b)) := by
  rcases hp.probe hb hn ha hbeta hlt with
    ⟨v, hprobe, hv, hfits⟩ | ⟨alpha', beta', hprobe, ha', hbeta', -, hlt', hnarrow⟩
  · refine .inl ⟨s.leaf b v .table, { p with checks := p.checks + 1, nodes := p.nodes + 1 }, ?_, hv,
      hfits, hp⟩
    simp [enter, hnever, check_never, hprobe, bind, Except.bind, pure, Except.pure]
  · cases hdecided : b.isDecided .strict with
    | true =>
      have hplain : plainValue score n b = GameValue.lost := plainValue_decided hdecided
      refine .inl ⟨s.leaf b GameValue.lost .decided,
        ({ p with checks := p.checks + 1, nodes := p.nodes + 1 } : Progress V).store b.key
          GameValue.lost .exact, ?_, R.lost, ?_, ?_⟩
      · simp [enter, hnever, check_never, hprobe, hdecided, bind, Except.bind, pure, Except.pure]
      · rw [hplain]
        exact ⟨fun _ => Int.le_refl _, fun _ => Int.le_refl _⟩
      · refine hp.insert hs.same hb hn R.lost ?_
        rw [hplain]
        rfl
    | false =>
      refine .inr ⟨alpha', beta', { p with checks := p.checks + 1, nodes := p.nodes + 1 }, ?_, rfl, ha',
        hbeta', hlt', hp, hnarrow⟩
      simp [enter, hnever, check_never, hprobe, hdecided, bind, Except.bind, pure, Except.pure]

theorem explore_cons {mv : Move} {moves : List Move} {c : Scan V} {child : Scored V}
    {p' : Progress V} (hnever : s.deadline = .never)
    (hchild : recurse (b.place mv) (-beta) (-c.alpha) { p with checks := p.checks + 1 } =
      .ok (child, p')) :
    explore recurse s b beta (mv :: moves) c p =
      if GameValue.lt c.alpha (c.add mv (-child.value) child.node).value then
        if GameValue.le beta (c.add mv (-child.value) child.node).value then
          .ok ({ c.add mv (-child.value) child.node with
            alpha := (c.add mv (-child.value) child.node).value, cut := true }, p')
        else explore recurse s b beta moves { c.add mv (-child.value) child.node with
          alpha := (c.add mv (-child.value) child.node).value } p'
      else explore recurse s b beta moves (c.add mv (-child.value) child.node) p' := by
  simp only [explore, hnever, check_never, bind, Except.bind, hchild]
  rfl

/-- Trying moves keeps what is known of the moves tried, and leaves none untried unless the window is
closed. -/
theorem explore_spec (hrec : Searches R score b₀ depth (j + 1) n recurse)
    (hnever : s.deadline = .never) (hb : Ahead b₀ j b) (hopen : b.isDecided .strict = false)
    (hbeta : R.IsNumber beta) {low : Int} {done moves : List Move} {c : Scan V}
    (hmoves : ∀ mv ∈ moves, mv ∈ b.legalMoves) (hdone : ∀ mv ∈ done, mv ∈ b.legalMoves)
    (hc : Scanned R (fun mv => -R.rank (plainValue score n (b.place mv))) low (R.rank beta) done c)
    (hlt : R.rank c.alpha < R.rank beta) (hp : Sound R score b₀ depth p.table) :
    ∃ c' p' done', explore recurse s b beta moves c p = .ok (c', p') ∧
      Sound R score b₀ depth p'.table ∧
      Scanned R (fun mv => -R.rank (plainValue score n (b.place mv))) low (R.rank beta) done' c' ∧
      (∀ mv ∈ done', mv ∈ b.legalMoves) ∧
      ((∀ mv, mv ∈ done ∨ mv ∈ moves → mv ∈ done') ∨ R.rank beta ≤ R.rank c'.value) := by
  induction moves generalizing done c p with
  | nil => exact ⟨c, p, done, rfl, hp, hc, hdone, .inl (by simp)⟩
  | cons mv moves ih =>
    have hmv : mv ∈ b.legalMoves := hmoves mv (by simp)
    have hneg : R.rank (-beta) < R.rank (-c.alpha) := by
      rw [R.rank_neg hbeta, R.rank_neg hc.alpha]
      omega
    obtain ⟨child, p', hchild, hvalue, hfits, hp'⟩ := hrec (b.place mv) (-beta) (-c.alpha)
      { p with checks := p.checks + 1 } (hb.move hopen hmv) (R.neg hbeta) (R.neg hc.alpha) hneg hp
    have hfits' : Fits (R.rank c.alpha) (R.rank beta) (R.rank (-child.value))
        (-R.rank (plainValue score n (b.place mv))) := by
      rw [R.rank_neg hbeta, R.rank_neg hc.alpha] at hfits
      rw [R.rank_neg hvalue]
      exact hfits.neg
    have hdone' : ∀ m ∈ mv :: done, m ∈ b.legalMoves := by
      intro m hm
      rcases List.mem_cons.mp hm with rfl | hm
      · exact hmv
      · exact hdone m hm
    have hmoves' : ∀ m ∈ moves, m ∈ b.legalMoves := fun m hm => hmoves m (by simp [hm])
    rw [explore_cons hnever hchild]
    have hrest {done' : List Move} {c' : Scan V}
        (h : (∀ m, m ∈ mv :: done ∨ m ∈ moves → m ∈ done') ∨ R.rank beta ≤ R.rank c'.value) :
        (∀ m, m ∈ done ∨ m ∈ mv :: moves → m ∈ done') ∨ R.rank beta ≤ R.rank c'.value := by
      refine h.imp_left fun h m hm => h m ?_
      simp only [List.mem_cons] at hm ⊢
      rcases hm with hm | rfl | hm <;> simp [*]
    cases hraise : GameValue.lt c.alpha (c.add mv (-child.value) child.node).value with
    | true =>
      have hadd : Scanned R (fun mv => -R.rank (plainValue score n (b.place mv))) low (R.rank beta)
          (mv :: done) { c.add mv (-child.value) child.node with
            alpha := (c.add mv (-child.value) child.node).value } :=
        hc.add (R.neg hvalue) hfits' child.node rfl (.inl ⟨hraise, rfl⟩)
      have hle := R.le_iff hbeta hadd.value
      cases hcut : GameValue.le beta (c.add mv (-child.value) child.node).value with
      | true =>
        exact ⟨_, p', mv :: done, rfl, hp', hadd.congr rfl rfl, hdone', .inr (hle.mp hcut)⟩
      | false =>
        simp only [↓reduceIte, Bool.false_eq_true]
        have hopen' : ¬ R.rank beta ≤ R.rank (c.add mv (-child.value) child.node).value :=
          fun h => Bool.noConfusion ((hle.mpr h).symm.trans hcut)
        obtain ⟨c', p'', done', hrun', hp'', hc', hd, hend⟩ :=
          ih hmoves' hdone' hadd (Int.not_le.mp hopen') hp'
        exact ⟨c', p'', done', hrun', hp'', hc', hd, hrest hend⟩
    | false =>
      simp only [↓reduceIte, Bool.false_eq_true]
      have hadd : Scanned R (fun mv => -R.rank (plainValue score n (b.place mv))) low (R.rank beta)
          (mv :: done) (c.add mv (-child.value) child.node) :=
        hc.add (R.neg hvalue) hfits' child.node rfl (.inr ⟨hraise, rfl⟩)
      obtain ⟨c', p'', done', hrun', hp'', hc', hd, hend⟩ := ih hmoves' hdone' hadd hlt hp'
      exact ⟨c', p'', done', hrun', hp'', hc', hd, hrest hend⟩

theorem bound_holds {c : Scan V} {t : Int} (hc : R.IsNumber c.value) (ha : R.IsNumber alpha)
    (hbeta : R.IsNumber beta) (hlt : R.rank alpha < R.rank beta)
    (hfits : Fits (R.rank alpha) (R.rank beta) (R.rank c.value) t) :
    (c.bound alpha beta).Holds (R.rank c.value) t := by
  have h₁ := R.le_iff hc ha
  have h₂ := R.le_iff hbeta hc
  have hupper := hfits.upper
  have hlower := hfits.lower
  unfold Scan.bound
  split
  · rename_i hle
    have := h₁.mp hle
    exact hupper (by omega)
  · rename_i hnle
    have := mt h₁.mpr hnle
    split
    · exact hlower (by omega)
    · rename_i hnle'
      have := mt h₂.mpr hnle'
      simp only [Bound.Holds]
      omega

/-- A position that is opened: its value fits the window it was opened with, and so does the value of the
best move. -/
theorem visit_of_opened (hs : Scores R s.evaluate score b₀ depth) (hnever : s.deadline = .never)
    (horders : OrdersMoves s) (hrec : Searches R score b₀ depth (j + 1) n (visit s n))
    (hb : Ahead b₀ j b) (hn : j + (n + 1) = depth) (hopen : b.isDecided .strict = false)
    {p' : Progress V} (henter : enter s b alpha beta p = .ok (.opened alpha' beta' p'))
    (ha : R.IsNumber alpha') (hbeta : R.IsNumber beta') (hlt : R.rank alpha' < R.rank beta')
    (hp : Sound R score b₀ depth p'.table) :
    ∃ r q, visit s (n + 1) b alpha beta p = .ok (r, q) ∧ R.IsNumber r.value ∧
      Fits (R.rank alpha') (R.rank beta') (R.rank r.value) (R.rank (plainValue score (n + 1) b)) ∧
      Sound R score b₀ depth q.table ∧ (r.best = none → b.legalMoves = []) ∧
      ∀ mv, r.best = some mv → mv ∈ b.legalMoves ∧ Fits (R.rank alpha') (R.rank beta')
        (R.rank r.value) (-R.rank (plainValue score n (b.place mv))) := by
  obtain ⟨moves, hmoves, hperm⟩ := horders b
  obtain ⟨c, q, done, hrun, hq, hc, hdone, hend⟩ := explore_spec hrec hnever hb hopen hbeta
    (fun mv hmv => hperm.mem_iff.mp hmv) (by simp) (Scanned.start ha) hlt hp
  obtain ⟨hge, hreached⟩ := hs.rank_succ hb hn hopen
  have hfits : Fits (R.rank alpha') (R.rank beta') (R.rank c.value)
      (R.rank (plainValue score (n + 1) b)) := by
    constructor
    · intro hup
      rcases hreached with he | ⟨mv, hmv, he⟩
      · have := R.rank_lost_le hc.value
        omega
      · have hall := hend.resolve_right (by omega)
        have := hc.upper mv (hall mv (.inr (hperm.mem_iff.mpr hmv))) hup
        omega
    · intro hlow
      cases hbest : c.best with
      | none =>
        have := R.rank_lost_le ha
        simp only [Scan.value, hbest] at hlow
        omega
      | some best =>
        obtain ⟨mv, v⟩ := best
        obtain ⟨hmem, hfit⟩ := hc.best mv v hbest
        have hle := hge mv (hdone mv hmem)
        have hlower := hfit.lower
        simp only [Scan.value, hbest] at hlow ⊢
        omega
  let tag := if c.cut then Tag.pruned else .searched
  let node := if s.wantTree then
    some (Tree.node ⟨b.lastMove, c.value, tag⟩ c.children.reverse) else none
  refine ⟨⟨c.value, c.best.map (·.1), node⟩, q.store b.key c.value (c.bound alpha' beta'), ?_,
    hc.value, hfits, ?_, ?_, ?_⟩
  · simp only [visit, henter, hmoves, hrun, bind, Except.bind, pure, Except.pure]
    rfl
  · exact hq.insert hs.same hb hn hc.value (bound_holds hc.value ha hbeta hlt hfits)
  · intro hnone
    have hnil : done = [] := hc.untried (Option.map_eq_none_iff.mp hnone)
    rcases hend with hall | hclosed
    · rw [List.eq_nil_iff_forall_not_mem]
      intro mv hmv
      have := hall mv (.inr (hperm.mem_iff.mpr hmv))
      simp [hnil] at this
    · have := R.rank_lost_le ha
      have hbest := Option.map_eq_none_iff.mp hnone
      simp only [Scan.value, hbest] at hclosed
      omega
  · intro mv hmv
    obtain ⟨⟨m, v⟩, hbest, rfl⟩ := Option.map_eq_some_iff.mp hmv
    obtain ⟨hmem, hfit⟩ := hc.best m v hbest
    refine ⟨hdone m hmem, ?_⟩
    simpa only [Scan.value, hbest] using hfit

/-- The search finds values that fit their windows, however many plies are left. -/
theorem searches_visit (hs : Scores R s.evaluate score b₀ depth) (hnever : s.deadline = .never)
    (horders : OrdersMoves s) (hn : j + n = depth) : Searches R score b₀ depth j n (visit s n) := by
  induction n generalizing j with
  | zero =>
    intro b alpha beta p hb ha hbeta hlt hp
    rcases enter_spec hs hnever hb hn ha hbeta hlt hp with
      ⟨r, p', henter, hr, hfits, hp'⟩ | ⟨alpha', beta', p', henter, hopen, -, -, -, hp', -⟩
    · exact ⟨r, p', by simp [visit, henter, bind, Except.bind, pure, Except.pure], hr, hfits, hp'⟩
    · obtain ⟨heval, hnumber⟩ := hs.leaf b (hn ▸ hb) hopen
      have hplain : plainValue score 0 b = score b := plainValue_zero hopen
      refine ⟨s.leaf b (score b) .depthLimit, p'.store b.key (score b) .exact, ?_, hnumber, ?_, ?_⟩
      · simp [visit, henter, heval, bind, Except.bind, pure, Except.pure, mapError_ok]
      · rw [hplain]
        exact ⟨fun _ => Int.le_refl _, fun _ => Int.le_refl _⟩
      · refine hp'.insert hs.same hb hn hnumber ?_
        rw [hplain]
        rfl
  | succ n ih =>
    intro b alpha beta p hb ha hbeta hlt hp
    rcases enter_spec hs hnever hb hn ha hbeta hlt hp with
      ⟨r, p', henter, hr, hfits, hp'⟩ |
        ⟨alpha', beta', p', henter, hopen, ha', hbeta', hlt', hp', hnarrow⟩
    · exact ⟨r, p', by simp [visit, henter, bind, Except.bind, pure, Except.pure], hr, hfits, hp'⟩
    · obtain ⟨r, q, hvisit, hr, hfits, hq, -⟩ := visit_of_opened hs hnever horders
        (ih (by omega)) hb hn hopen henter ha' hbeta' hlt' hp'
      exact ⟨r, q, hvisit, hr, hnarrow _ hfits, hq⟩

/-! ## A whole round -/

theorem rank_eq_of_fits {v t : V} (hv : R.IsNumber v) (ht : R.IsNumber t)
    (h : Fits (R.rank GameValue.lost) (R.rank GameValue.won) (R.rank v) (R.rank t)) :
    R.rank v = R.rank t := by
  have h₁ := R.rank_lost_le hv
  have h₂ := R.rank_lost_le ht
  have h₃ := R.rank_le_won hv
  have h₄ := R.rank_le_won ht
  have hupper := h.upper
  have hlower := h.lower
  omega

theorem enter_empty (b : Board) (alpha beta : V) (nodes checks : Nat) (hnever : s.deadline = .never) :
    enter s b alpha beta ⟨∅, nodes, checks⟩ = .ok (if b.isDecided .strict then
      .closed (s.leaf b GameValue.lost .decided)
        (Progress.store ⟨∅, nodes + 1, checks + 1⟩ b.key GameValue.lost .exact)
      else .opened alpha beta ⟨∅, nodes + 1, checks + 1⟩) := by
  cases hdecided : b.isDecided .strict <;>
    simp [enter, hnever, check_never, Table.probe, hdecided, bind, Except.bind, pure, Except.pure]

/-- From an empty table the search finds the plain value, and a move that leads to it unless there is
none to find. The table that it leaves is sound. -/
theorem visit_empty (hs : Scores R s.evaluate score b depth) (hnever : s.deadline = .never)
    (horders : OrdersMoves s) (checks : Nat) :
    ∃ r p, visit s depth b GameValue.lost GameValue.won ⟨∅, 0, checks⟩ = .ok (r, p) ∧
      R.IsNumber r.value ∧ R.rank r.value = R.rank (plainValue score depth b) ∧
      Sound R score b depth p.table ∧
      (r.best = none ↔ b.isDecided .strict = true ∨ depth = 0 ∨ b.legalMoves = []) ∧
      ∀ mv, r.best = some mv → mv ∈ b.legalMoves ∧
        R.rank (plainValue score (depth - 1) (b.place mv)) = -R.rank r.value := by
  have henter := enter_empty b GameValue.lost GameValue.won 0 checks hnever
  have hplain := hs.isNumber .root (Nat.zero_add depth)
  obtain ⟨r, p, hvisit, hr, hfits, hp⟩ := searches_visit hs hnever horders (Nat.zero_add depth) b
    GameValue.lost GameValue.won ⟨∅, 0, checks⟩ .root R.lost R.won R.rank_lost_lt_won Sound.empty
  cases hdecided : b.isDecided .strict with
  | true =>
    simp only [hdecided, if_true] at henter
    refine ⟨r, p, hvisit, hr, rank_eq_of_fits hr hplain hfits, hp, ?_, ?_⟩
    all_goals
      have hbest : r.best = none := by
        cases depth <;> simp [visit, henter, bind, Except.bind, pure, Except.pure] at hvisit <;>
          simp [← hvisit.1, Setting.leaf]
      simp [hbest]
  | false =>
    simp only [hdecided, Bool.false_eq_true, if_false] at henter
    cases depth with
    | zero =>
      have hbest : r.best = none := by
        obtain ⟨heval, -⟩ := hs.leaf b .root hdecided
        simp [visit, henter, heval, bind, Except.bind, pure, Except.pure, mapError_ok] at hvisit
        simp [← hvisit.1, Setting.leaf]
      exact ⟨r, p, hvisit, hr, rank_eq_of_fits hr hplain hfits, hp, by simp [hbest], by simp [hbest]⟩
    | succ n =>
      obtain ⟨r, p, hvisit, hr, hfits, hp, hnone, hbest⟩ := visit_of_opened hs hnever horders
        (searches_visit hs hnever horders (by omega)) .root (Nat.zero_add _) hdecided henter R.lost
        R.won R.rank_lost_lt_won Sound.empty
      refine ⟨r, p, hvisit, hr, rank_eq_of_fits hr hplain hfits, hp, ?_, fun mv hmv => ?_⟩
      · simp only [Bool.false_eq_true, Nat.add_one_ne_zero, false_or]
        refine ⟨hnone, fun hnil => ?_⟩
        cases hb : r.best with
        | none => rfl
        | some mv =>
          have := (hbest mv hb).1
          simp [hnil] at this
      · obtain ⟨hlegal, hfit⟩ := hbest mv hmv
        have hchild : R.IsNumber (plainValue score n (b.place mv)) :=
          hs.isNumber (Ahead.root.move hdecided hlegal) (by omega)
        rw [← R.rank_neg hchild] at hfit
        have := rank_eq_of_fits hr (R.neg hchild) hfit
        rw [R.rank_neg hchild] at this
        exact ⟨hlegal, by rw [Nat.add_sub_cancel]; omega⟩

theorem visit_root (hs : Scores R s.evaluate score b depth) (hnever : s.deadline = .never)
    (horders : OrdersMoves s) :
    ∃ r p, visit s depth b GameValue.lost GameValue.won ⟨∅, 0, 0⟩ = .ok (r, p) ∧
      R.IsNumber r.value ∧ R.rank r.value = R.rank (plainValue score depth b) ∧
      (r.best = none ↔ b.isDecided .strict = true ∨ depth = 0 ∨ b.legalMoves = []) ∧
      ∀ mv, r.best = some mv → mv ∈ b.legalMoves ∧
        R.rank (plainValue score (depth - 1) (b.place mv)) = -R.rank r.value := by
  obtain ⟨r, p, hvisit, hr, hrank, -, hbest⟩ := visit_empty hs hnever horders 0
  exact ⟨r, p, hvisit, hr, hrank, hbest⟩

theorem searchDepth_eq {evaluate : Board → Except Error V} {previous : Option (Table V)} {r : Scored V}
    (h : visit ⟨evaluate, previous, .never, false⟩ depth b GameValue.lost GameValue.won ⟨∅, 0, 0⟩ =
      .ok (r, p)) : searchDepth evaluate b depth previous =
        .ok ⟨r.value, r.best, p.nodes, p.checks, p.table, r.node⟩ := by
  simp [searchDepth, round, h, bind, Except.bind, pure, Except.pure]

end Negamax
end HexGame
