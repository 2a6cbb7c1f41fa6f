import HexGame.Error

/-!
# Deadlines

A search looks at its deadline from time to time. All that it can see of a deadline is how many of these
checks pass before the first one that fails.
-/
namespace HexGame

inductive Deadline where
  | never
  | afterChecks (passing : Nat)
  deriving DecidableEq, Repr

namespace Deadline

def expiredAfter : Deadline → Nat → Bool
  | never, _ => false
  | afterChecks passing, checks => passing ≤ checks

end Deadline
end HexGame
