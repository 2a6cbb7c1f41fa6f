import HexGame.MonteCarlo.Iteration
import HexGame.Negamax.Value

/-!
# Choosing where to go down

A visit goes to the most urgent child, the first of several. A child that has not been visited is more
urgent than any other; the urgency of the others is their mean, raised where they have had few of their
parent's visits.
-/
namespace HexGame
namespace MonteCarlo

/-- The urgency of a child, given the visits of its parent. -/
def urgency (exploration : Float) (parentVisits : Nat) (s : Statistic Float) : Float :=
  if s.visits = 0 then GameValue.won
  else
    s.mean +
      exploration * ((Float.ofNat parentVisits).log / Float.ofNat s.visits).sqrt

/-- The place of the first largest value above the one at hand, counting from `i`. -/
def firstLargest {V : Type} [GameValue V] (i best : Nat) (value : V) : List V → Nat
  | [] => best
  | v :: vs =>
    if GameValue.lt value v then firstLargest (i + 1) i v vs
    else firstLargest (i + 1) best value vs

def mostUrgent (exploration : Float) : Selection Float := fun parentVisits children =>
  firstLargest 0 0 GameValue.lost (children.map fun t => urgency exploration parentVisits t.value)

end MonteCarlo
end HexGame
