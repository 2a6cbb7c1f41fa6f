import HexGame.Error
import HexGame.Tree

/-!
# Visits and means

A node of a Monte Carlo tree keeps the number of its visits and the mean of their scores, seen by the
player who moved into its position. Means are kept in any number type with the operations below, so that
they run on floating point numbers and can be studied on exact ones.
-/
namespace HexGame

/-- The arithmetic of scores and means. -/
class MeanValue (V : Type) extends Neg V, Add V, Sub V, Mul V, Div V where
  ofNat : Nat → V
  half : V

instance : MeanValue Float where
  ofNat := Float.ofNat
  half := 0.5

structure Statistic (V : Type) where
  board : Board
  visits : Nat
  mean : V

abbrev SearchTree (V : Type) := Tree (Statistic V)

namespace Statistic

variable {V : Type} [MeanValue V]

def fresh (b : Board) : Statistic V := ⟨b, 0, MeanValue.ofNat 0⟩

/-- There is no room for more visits. -/
def maxVisits : Nat := UInt32.size - 1

def record (s : Statistic V) (score : V) : Except Fault (Statistic V) :=
  if s.visits < maxVisits then
    let n := s.visits + 1
    .ok { s with visits := n, mean := s.mean + (score - s.mean) / MeanValue.ofNat n }
  else .error (.overrun .addition)

def redMean (s : Statistic V) : V :=
  match s.board.lastMover with
  | .red => s.mean
  | .blue => -s.mean

end Statistic
end HexGame
