/-!
# Random choices

A source of choices gives a number below a bound and the next state of the source. `Generator` is a
multiplicative generator on 64-bit words, whose draws are scaled to the bound.
-/
namespace HexGame

/-- A source of choices. Every draw is below its bound, whatever the source. -/
class ChoiceSource (G : Type) where
  below : (n : Nat) → 0 < n → G → Fin n × G

structure Generator where
  state : UInt64
  deriving DecidableEq, Repr

namespace Generator

def ofSeed (seed : UInt64) : Generator := ⟨seed⟩

/-- The next word: the halves of a 128-bit product of the state with itself, mixed. -/
def next (g : Generator) : UInt64 × Generator :=
  let s := g.state + 0x2d358dccaa6c78a5
  let t := s.toNat * (s ^^^ 0x8bb84b93962eacc9).toNat
  (t.toUInt64 ^^^ (t / UInt64.size).toUInt64, ⟨s⟩)

/-- A word scaled to the numbers below `n`, with the fraction that is cut off. -/
def scale (n : Nat) (r : UInt64) : Nat × Nat :=
  (r.toNat * n / UInt64.size, r.toNat * n % UInt64.size)

/-- Draws again while the fraction lies below the threshold, which makes all results equally likely.
After `attempts` draws the result is taken as it is. -/
def redraw (n threshold : Nat) : Nat → UInt64 → Generator → UInt64 × Generator
  | 0, r, g => (r, g)
  | attempts + 1, r, g =>
    if (scale n r).2 < threshold then
      let (r, g) := g.next
      redraw n threshold attempts r g
    else (r, g)

/-- More draws than any run will see rejected in a row. -/
def maxAttempts : Nat := 1000

/-- The word that is scaled to a number below `n`. -/
def draw (n : Nat) (g : Generator) : UInt64 × Generator :=
  let (r, g) := g.next
  if (scale n r).2 < n then redraw n ((UInt64.size - n) % n) maxAttempts r g else (r, g)

theorem scale_lt {n : Nat} (h : 0 < n) (r : UInt64) : (scale n r).1 < n := by
  have hr : r.toNat < UInt64.size := r.toNat_lt
  exact Nat.div_lt_of_lt_mul (Nat.mul_lt_mul_of_pos_right hr h)

end Generator

instance : ChoiceSource Generator where
  below n h g :=
    let (r, g) := g.draw n
    (⟨(Generator.scale n r).1, Generator.scale_lt h r⟩, g)

end HexGame
