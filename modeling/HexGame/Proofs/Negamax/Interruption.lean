import HexGame.Negamax.Deepening

/-!
# Interrupted rounds

All that a deadline does to a round is to cancel it (`MayCancel`). A round that makes no more checks than the
deadline lets pass has the result that it has without a deadline, and any other round that would come to its end is
cancelled on the way (`UnderDeadline.round`). So it is with every visit (`UnderDeadline.visit`).
-/
namespace HexGame

/-- So many checks pass. -/
def Deadline.allows : Deadline → Nat → Bool
  | never, _ => true
  | afterChecks passing, checks => checks ≤ passing

theorem Deadline.allows_of_le {d : Deadline} {m n : Nat} (h : d.allows n = true) (hle : m ≤ n) :
    d.allows m = true := by
  cases d with
  | never => rfl
  | afterChecks passing => exact decide_eq_true (Nat.le_trans hle (of_decide_eq_true h))

namespace Negamax

/-- The computation `x` has the result of `y`, or it is cancelled on the way. -/
def MayCancel {α : Type} (x y : Except Interruption α) : Prop := x = .error (.error .cancelled) ∨ x = y

/-- The same search without a deadline. -/
def Setting.untimed {V : Type} (s : Setting V) : Setting V := { s with deadline := .never }

/-- The computation `x` is what becomes of `y` under a deadline. So many checks have been made before it, and
its result tells how many have been made after it. -/
inductive UnderDeadline {α : Type} (d : Deadline) (checks : Nat) (count : α → Nat) :
    Except Interruption α → Except Interruption α → Prop where
  | same {x : Except Interruption α}
      (h : ∀ a, x = .ok a → checks ≤ count a ∧ (d.allows checks = true → d.allows (count a) = true)) :
      UnderDeadline d checks count x x
  | cancelled {y : Except Interruption α} (h : ∀ a, y = .ok a → checks ≤ count a ∧ d.allows (count a) = false) :
      UnderDeadline d checks count (.error (.error .cancelled)) y

namespace UnderDeadline

section

variable {α β : Type} {d : Deadline} {checks : Nat} {count : α → Nat} {count' : β → Nat}
variable {x y : Except Interruption α} {f g : α → Except Interruption β} {a : α}

theorem free (x : Except Interruption α) : UnderDeadline d checks (fun _ => checks) x x :=
  .same fun _ _ => ⟨Nat.le_refl _, id⟩

theorem ok (a : α) (h : count a = checks) : UnderDeadline d checks count (.ok a) (.ok a) :=
  .same fun _ ha => Except.ok.inj ha ▸ h ▸ ⟨Nat.le_refl _, id⟩

theorem bind (h : UnderDeadline d checks count x y) (hf : ∀ a, UnderDeadline d (count a) count' (f a) (g a)) :
    UnderDeadline d checks count' (x >>= f) (y >>= g) := by
  cases h with
  | same h =>
    cases x with
    | error e => exact .same nofun
    | ok a =>
      obtain ⟨hle, hallows⟩ := h a rfl
      show UnderDeadline d checks count' (f a) (g a)
      generalize f a = x, g a = y, hf a = hfa
      cases hfa with
      | same h => exact .same fun c hc => ⟨Nat.le_trans hle (h c hc).1, fun hd => (h c hc).2 (hallows hd)⟩
      | cancelled h => exact .cancelled fun c hc => ⟨Nat.le_trans hle (h c hc).1, (h c hc).2⟩
  | cancelled h =>
    refine .cancelled fun c hc => ?_
    cases y with
    | error e => cases hc
    | ok a =>
      obtain ⟨hle, hallows⟩ := h a rfl
      have hc : g a = .ok c := hc
      -- what comes after a check that fails does not make it pass
      have hmore : count a ≤ count' c := by
        generalize f a = x, hf a = hfa at hc
        cases hfa with
        | same h => exact (h c hc).1
        | cancelled h => exact (h c hc).1
      refine ⟨Nat.le_trans hle hmore, Bool.eq_false_iff.mpr fun hd => ?_⟩
      exact Bool.noConfusion ((Deadline.allows_of_le hd hmore).symm.trans hallows)

theorem mayCancel (h : UnderDeadline d checks count x y) : MayCancel x y := by
  cases h with
  | same => exact .inr rfl
  | cancelled => exact .inl rfl

theorem eq_ok (h : UnderDeadline d checks count x y) (hx : x = .ok a) : y = .ok a := by
  cases h with
  | same => exact hx
  | cancelled => cases hx

end

end UnderDeadline

/-- The checks that were made when the position was entered. -/
def Entry.checks {V : Type} : Entry V → Nat
  | .closed _ p => p.checks
  | .opened _ _ p => p.checks

namespace UnderDeadline

variable {V : Type} [GameValue V]
variable {recurse recurse' : Board → V → V → Progress V → Except Interruption (Scored V × Progress V)}

omit [GameValue V] in
theorem check (p : Progress V) (d : Deadline) :
    UnderDeadline d p.checks (·.checks) (p.check d) (p.check .never) := by
  unfold Progress.check
  cases d with
  | never => exact .same fun _ h => Except.ok.inj h ▸ ⟨Nat.le_succ _, fun _ => rfl⟩
  | afterChecks passing =>
    split
    · rename_i hexpired
      have hle : passing ≤ p.checks := of_decide_eq_true hexpired
      refine .cancelled fun _ h => Except.ok.inj h ▸ ⟨Nat.le_succ _, decide_eq_false ?_⟩
      exact Nat.not_le.mpr (Nat.lt_succ_of_le hle)
    · rename_i hpassing
      have hlt : ¬ passing ≤ p.checks := fun hle => hpassing (decide_eq_true hle)
      exact .same fun _ h => Except.ok.inj h ▸ ⟨Nat.le_succ _, fun _ => decide_eq_true (Nat.not_le.mp hlt)⟩

theorem enter (s : Setting V) (b : Board) (alpha beta : V) (p : Progress V) :
    UnderDeadline s.deadline p.checks Entry.checks (enter s b alpha beta p)
      (enter s.untimed b alpha beta p) := by
  refine bind (check p s.deadline) fun q => ?_
  dsimp only
  split
  · exact ok _ rfl
  · split <;> exact ok _ rfl

theorem explore (s : Setting V) (h : ∀ b alpha beta p,
      UnderDeadline s.deadline p.checks (·.2.checks) (recurse b alpha beta p) (recurse' b alpha beta p))
    (b : Board) (beta : V) (moves : List Move) (c : Scan V) (p : Progress V) :
    UnderDeadline s.deadline p.checks (·.2.checks) (explore recurse s b beta moves c p)
      (explore recurse' s.untimed b beta moves c p) := by
  induction moves generalizing c p with
  | nil => exact ok _ rfl
  | cons mv moves ih =>
    refine bind (check p s.deadline) fun p => bind (h _ _ _ _) fun (child, p) => ?_
    -- from here on both sides do the same until the next move
    dsimp only
    split
    · split
      · exact ok _ rfl
      · exact ih _ _
    · exact ih _ _

theorem visit (s : Setting V) (n : Nat) (b : Board) (alpha beta : V) (p : Progress V) :
    UnderDeadline s.deadline p.checks (·.2.checks) (visit s n b alpha beta p)
      (visit s.untimed n b alpha beta p) := by
  induction n generalizing b alpha beta p with
  | zero =>
    refine bind (enter s b alpha beta p) fun entry => ?_
    cases entry with
    | closed result p => exact ok _ rfl
    | opened alpha beta p => exact bind (free _) fun value => ok _ rfl
  | succ n ih =>
    refine bind (enter s b alpha beta p) fun entry => ?_
    cases entry with
    | closed result p => exact ok _ rfl
    | opened alpha beta p =>
      refine bind (free (s.orderedMoves b)) fun moves => ?_
      exact bind (explore s ih b beta moves _ p) fun (c, p) => ok _ rfl

theorem round (s : Setting V) (b : Board) (depth checks : Nat) :
    UnderDeadline s.deadline checks Round.checks (round s b depth checks) (round s.untimed b depth checks) :=
  bind (visit s depth b _ _ ⟨∅, 0, checks⟩) fun _ => ok _ rfl

end UnderDeadline
end Negamax
end HexGame
