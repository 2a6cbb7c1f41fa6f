import HexGame.Proofs.Board.Key

/-!
# Lines of play

`playAll` plays a list of moves, each of which has to be legal on the board that the moves before it lead
to. A line is followed move by move from either end (`playAll_cons`, `playAll_concat`).
-/
namespace HexGame

theorem bind_eq_ok {ε α β : Type} {x : Except ε α} {f : α → Except ε β} {r : β} :
    x >>= f = .ok r ↔ ∃ a, x = .ok a ∧ f a = .ok r := by
  cases x with
  | error e => simp [bind, Except.bind]
  | ok a => simp [bind, Except.bind]

theorem bind_eq_error {ε α β : Type} {x : Except ε α} {f : α → Except ε β} {e : ε} :
    x >>= f = .error e ↔ x = .error e ∨ ∃ a, x = .ok a ∧ f a = .error e := by
  cases x with
  | error e' => simp [bind, Except.bind]
  | ok a => simp [bind, Except.bind]

theorem foldlM_flatMap {m : Type → Type} [Monad m] [LawfulMonad m] {α β σ : Type} {f : α → List β}
    {step : σ → β → m σ} {s : σ} {l : List α} :
    (l.flatMap f).foldlM step s = l.foldlM (fun s a => (f a).foldlM step s) s := by
  induction l generalizing s with
  | nil => rfl
  | cons a l ih => simp only [List.flatMap_cons, List.foldlM_append, List.foldlM_cons, ih]

theorem foldlM_congr {m : Type → Type} [Monad m] {α σ : Type} {f g : σ → α → m σ} {s : σ} {l : List α}
    (h : ∀ s, ∀ a ∈ l, f s a = g s a) : l.foldlM f s = l.foldlM g s := by
  induction l generalizing s with
  | nil => rfl
  | cons a l ih =>
    obtain ⟨ha, hl⟩ := List.forall_mem_cons.mp fun a ha s => h s a ha
    rw [List.foldlM_cons, List.foldlM_cons, ha s]
    exact congrArg _ (funext fun next => ih fun s a ha => hl a ha s)

/-- A map that every step respects, the whole loop respects. -/
theorem foldlM_hom {ε α σ τ : Type} {step : σ → α → Except ε σ} {step' : τ → α → Except ε τ} {s : σ} {l : List α}
    (f : σ → τ) (h : ∀ s, ∀ a ∈ l, step' (f s) a = (step s a).map f) :
    l.foldlM step' (f s) = (l.foldlM step s).map f := by
  induction l generalizing s with
  | nil => rfl
  | cons a l ih =>
    obtain ⟨ha, hl⟩ := List.forall_mem_cons.mp fun a ha s => h s a ha
    rw [List.foldlM_cons, List.foldlM_cons, ha s]
    cases step s a with
    | error e => rfl
    | ok next => exact ih fun s a ha => hl a ha s

/-- What every step keeps, a loop that comes to its end keeps. -/
theorem foldlM_preserves {ε α σ : Type} {step : σ → α → Except ε σ} {s s' : σ} {l : List α} (P : σ → Prop)
    (hstep : ∀ s a s', P s → step s a = .ok s' → P s') (hs : P s) (h : l.foldlM step s = .ok s') : P s' := by
  induction l generalizing s with
  | nil => exact Except.ok.inj h ▸ hs
  | cons a l ih =>
    obtain ⟨next, hnext, h⟩ := bind_eq_ok.mp h
    exact ih (hstep s a next hs hnext) h

namespace Board

variable {b b' : Board} {mv : Move} {moves : List Move}

def playAll (b : Board) (moves : List Move) : Except MoveError Board := moves.foldlM tryPlay b

theorem tryPlay_eq_ok_iff : b.tryPlay mv = .ok b' ↔ mv ∈ b.legalMoves ∧ b' = b.place mv := by
  rw [tryPlay_eq_ok, mem_legalMoves, ← and_assoc, and_comm (a := mv.color = b.toMove)]

theorem tryPlay_of_mem (hmv : mv ∈ b.legalMoves) : b.tryPlay mv = .ok (b.place mv) :=
  tryPlay_eq_ok_iff.mpr ⟨hmv, rfl⟩

@[simp] theorem playAll_nil : b.playAll [] = .ok b := rfl

theorem playAll_cons :
    b.playAll (mv :: moves) = .ok b' ↔ mv ∈ b.legalMoves ∧ (b.place mv).playAll moves = .ok b' := by
  refine (bind_eq_ok (f := (playAll · moves))).trans ⟨?_, ?_⟩
  · rintro ⟨next, hplay, h⟩
    obtain ⟨hmv, rfl⟩ := tryPlay_eq_ok_iff.mp hplay
    exact ⟨hmv, h⟩
  · rintro ⟨hmv, h⟩
    exact ⟨_, tryPlay_of_mem hmv, h⟩

theorem playAll_concat : b.playAll (moves ++ [mv]) = .ok b' ↔
    ∃ b₁, b.playAll moves = .ok b₁ ∧ mv ∈ b₁.legalMoves ∧ b' = b₁.place mv := by
  induction moves generalizing b with
  | nil =>
    rw [List.nil_append, playAll_cons]
    simp [eq_comm]
  | cons m moves ih =>
    rw [List.cons_append, playAll_cons, ih]
    simp only [playAll_cons]
    exact ⟨fun ⟨hm, b₁, h, h'⟩ => ⟨b₁, ⟨hm, h⟩, h'⟩, fun ⟨b₁, ⟨hm, h⟩, h'⟩ => ⟨hm, b₁, h, h'⟩⟩

theorem emptyCells_playAll (h : b.playAll moves = .ok b') : b'.emptyCells + moves.length = b.emptyCells := by
  induction moves generalizing b with
  | nil =>
    obtain rfl := Except.ok.inj h
    rfl
  | cons mv moves ih =>
    obtain ⟨hmv, h⟩ := playAll_cons.mp h
    have hrest := ih h
    have hcell := emptyCells_place (mem_legalMoves.mp hmv).1
    simp only [List.length_cons]
    omega

/-! ## The players -/

theorem lastMover_place (hmv : mv ∈ b.legalMoves) : (b.place mv).lastMover = b.toMove :=
  (isEmptyAt_of_mem_legalMoves hmv).2

theorem toMove_place_of_mem (hmv : mv ∈ b.legalMoves) : (b.place mv).toMove = b.lastMover := by
  rw [toMove, lastMover_place hmv, toMove, Color.opponent_opponent]

theorem color_of_playAll (h : b.playAll moves = .ok b') (i : Nat) (hi : i < moves.length) :
    moves[i].color = if i % 2 = 0 then b.toMove else b.lastMover := by
  induction moves generalizing b i with
  | nil => simp at hi
  | cons mv moves ih =>
    obtain ⟨hmv, h⟩ := playAll_cons.mp h
    cases i with
    | zero => exact (mem_legalMoves.mp hmv).2
    | succ i =>
      have hrest := ih h i (Nat.lt_of_succ_lt_succ hi)
      rw [toMove_place_of_mem hmv, lastMover_place hmv] at hrest
      rw [List.getElem_cons_succ, hrest]
      rcases Nat.mod_two_eq_zero_or_one i with heven | hodd
      · rw [if_pos heven, if_neg (by omega)]
      · rw [if_neg (by omega), if_pos (by omega)]

theorem lastMover_eq_of_length {b₁ b₂ : Board} {moves' : List Move} (h : b.playAll moves = .ok b₁)
    (h' : b'.playAll moves' = .ok b₂) (hlast : b.lastMover = b'.lastMover)
    (hlength : moves.length = moves'.length) : b₁.lastMover = b₂.lastMover := by
  induction moves generalizing b b' moves' with
  | nil =>
    obtain rfl := List.length_eq_zero_iff.mp hlength.symm
    obtain rfl := Except.ok.inj h
    obtain rfl := Except.ok.inj h'
    exact hlast
  | cons mv moves ih =>
    obtain ⟨mv', moves', rfl⟩ := List.exists_cons_of_length_eq_add_one hlength.symm
    obtain ⟨hmv, h⟩ := playAll_cons.mp h
    obtain ⟨hmv', h'⟩ := playAll_cons.mp h'
    refine ih h h' ?_ (Nat.succ.inj hlength)
    rw [lastMover_place hmv, lastMover_place hmv', toMove, toMove, hlast]

/-! ## What a line leaves on the board -/

theorem size_playAll (h : b.playAll moves = .ok b') : b'.size = b.size := by
  induction moves generalizing b with
  | nil => exact Except.ok.inj h ▸ rfl
  | cons mv moves ih => exact (ih (playAll_cons.mp h).2).trans (size_place b mv)

theorem colorAt_playAll (h : b.playAll moves = .ok b') (c : Cell) (k : Color) :
    b'.colorAt c = some k ↔ ⟨c, k⟩ ∈ moves ∨ b.colorAt c = some k := by
  induction moves generalizing b with
  | nil =>
    obtain rfl := Except.ok.inj h
    simp
  | cons mv moves ih =>
    obtain ⟨hmv, h⟩ := playAll_cons.mp h
    have hempty := (mem_legalMoves.mp hmv).1
    rw [ih h, colorAt_place hempty, List.mem_cons, or_comm (a := (⟨c, k⟩ : Move) = mv), or_assoc]
    refine or_congr Iff.rfl ?_
    obtain ⟨d, l⟩ := mv
    rw [Move.mk.injEq]
    split
    · rename_i hc
      simp [hc, (isEmptyAt_iff.mp hempty).2, eq_comm]
    · rename_i hc
      simp [hc]

/-- The moves of a line go to cells that are empty at its beginning, and to each of them once. -/
theorem empty_of_playAll (h : b.playAll moves = .ok b') :
    (∀ mv ∈ moves, b.isEmptyAt mv.cell = true) ∧ moves.Pairwise fun m n => m.cell ≠ n.cell := by
  induction moves generalizing b with
  | nil => simp
  | cons mv moves ih =>
    obtain ⟨hmv, h⟩ := playAll_cons.mp h
    have hempty := (mem_legalMoves.mp hmv).1
    obtain ⟨hrest, hnodup⟩ := ih h
    have hlater (m : Move) (hm : m ∈ moves) := (isEmptyAt_place hempty).mp (hrest m hm)
    refine ⟨List.forall_mem_cons.mpr ⟨hempty, fun m hm => (hlater m hm).2⟩, ?_⟩
    exact List.pairwise_cons.mpr ⟨fun m hm => (hlater m hm).1.symm, hnodup⟩

theorem nodup_of_playAll (h : b.playAll moves = .ok b') : moves.Nodup :=
  (empty_of_playAll h).2.imp fun hne heq => hne (congrArg Move.cell heq)

/-- Two lines lead to one position exactly when they consist of the same moves. -/
theorem key_eq_iff_perm {b₁ b₂ : Board} {moves' : List Move} (h : b.playAll moves = .ok b₁)
    (h' : b.playAll moves' = .ok b₂) : b₁.key = b₂.key ↔ moves.Perm moves' := by
  have hmem {m : Move} {moves : List Move} {b' : Board} (h : b.playAll moves = .ok b') :
      m ∈ moves ↔ b.isEmptyAt m.cell = true ∧ b'.colorAt m.cell = some m.color := by
    rw [colorAt_playAll h]
    refine ⟨fun hm => ⟨(empty_of_playAll h).1 m hm, .inl hm⟩, fun ⟨hempty, hm⟩ => hm.resolve_right fun hc => ?_⟩
    simp [(isEmptyAt_iff.mp hempty).2] at hc
  constructor
  · intro hkey
    refine (List.perm_ext_iff_of_nodup (nodup_of_playAll h) (nodup_of_playAll h')).mpr fun m => ?_
    rw [hmem h, hmem h', colorAt_eq_of_key hkey]
  · intro hperm
    refine key_eq_iff.mpr ⟨(size_playAll h).trans (size_playAll h').symm,
      lastMover_eq_of_length h h' rfl hperm.length_eq, fun c => Option.ext fun k => ?_⟩
    rw [colorAt_playAll h, colorAt_playAll h', hperm.mem_iff]

end Board
end HexGame
