/-!
# Decimals with fixed places

A binary fraction is written with a fixed number of places. The exact value is rounded, and a half goes
to the even neighbour. The sign bit is written even where the rounded value is zero.
-/
namespace HexGame
namespace Text

/-- The quotient rounded to the nearest integer, a half to the even neighbour. -/
def roundDiv (num den : Nat) : Nat :=
  let q := num / den
  let twice := 2 * (num % den)
  if twice < den then q
  else if den < twice then q + 1
  else if q % 2 = 0 then q else q + 1

/-- The number `n` with its last `places` digits behind the point. -/
def placePoint (places n : Nat) : String :=
  if places = 0 then toString n
  else
    let unit := Nat.pow 10 places
    let fraction := toString (n % unit)
    let zeros := String.ofList (List.replicate (places - fraction.length) '0')
    s!"{n / unit}.{zeros}{fraction}"

/-- The magnitude of a finite float as a quotient of natural numbers. -/
def magnitude (exponent mantissa : Nat) : Nat × Nat :=
  let m := if exponent = 0 then mantissa else mantissa + (1 <<< 52)
  let e := max exponent 1
  if 1075 ≤ e then (m <<< (e - 1075), 1) else (m, 1 <<< (1075 - e))

def ofFloat (places : Nat) (x : Float) : String :=
  let bits := x.toBits.toNat
  let sign := if bits >>> 63 = 1 then "-" else ""
  let exponent := (bits >>> 52) % 2048
  let mantissa := bits % (1 <<< 52)
  if exponent = 2047 then
    if mantissa = 0 then sign ++ "inf" else "NaN"
  else
    let (num, den) := magnitude exponent mantissa
    sign ++ placePoint places (roundDiv (num * Nat.pow 10 places) den)

end Text
end HexGame
