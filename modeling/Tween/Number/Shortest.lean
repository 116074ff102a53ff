/-
The fewest decimal digits that read back as a double. A double is what every
real in an interval around it rounds to; the shortest text is the point of the
coarsest power-of-ten grid that meets the interval, the nearer one where two
do. Two points may be equally near, so the search is told which to take. It is
exact: it compares natural numbers only.
-/
import Tween.Number.Double

namespace Tween

/-- A decimal number `digits * 10 ^ exponent`. -/
structure Scientific where
  digits : Nat
  exponent : Int
deriving DecidableEq, Repr

/-- Which of two equally near points of a grid is taken. -/
inductive Tie where
  | up
  | toEven
deriving DecidableEq, Repr

/-- Whether the upper of `n` and `n + 1` is taken. -/
def Tie.takesUpper : Tie → Nat → Bool
  | up, _ => true
  | toEven, n => n % 2 == 1

namespace Scientific

/-- The reals that round to a double, as multiples of `1 / den`: the value and
the two ends, which belong to it when `closed`. -/
structure Rounded where
  value : Nat
  low : Nat
  high : Nat
  den : Nat
  closed : Bool

/-- The interval of the double `mantissa * 2 ^ exponent`. It reaches half way
to either neighbour; the neighbour below a power of two is half as far. -/
def Rounded.of (mantissa : Nat) (exponent : Int) : Rounded :=
  let unit := Nat.pow 2 exponent.toNat
  let below := if mantissa = Nat.pow 2 52 then 1 else 2
  { value := 4 * mantissa * unit
    low := (4 * mantissa - below) * unit
    high := (4 * mantissa + 2) * unit
    den := 4 * Nat.pow 2 (-exponent).toNat
    closed := mantissa % 2 == 0 }

/-- Whether the fraction `num / den` lies in the interval. -/
def Rounded.contains (r : Rounded) (num den : Nat) : Bool :=
  if r.closed then
    decide (r.low * den ≤ num * r.den) && decide (num * r.den ≤ r.high * den)
  else
    decide (r.low * den < num * r.den) && decide (num * r.den < r.high * den)

/-- The point of the grid of multiples of `10 ^ k` that lies in the interval
and nearest to the value, if there is one. -/
def Rounded.onGrid (r : Rounded) (tie : Tie) (k : Int) : Option Scientific :=
  let step := Nat.pow 10 k.toNat
  let parts := Nat.pow 10 (-k).toNat
  let below := r.value * parts / (r.den * step)
  let above := below + 1
  let hit (d : Nat) := r.contains (d * step) parts
  let twice := 2 * r.value * parts
  let middle := (below + above) * (r.den * step)
  let nearer : Nat :=
    if twice < middle then below
    else if middle < twice || tie.takesUpper below then above
    else below
  if hit below && hit above then some ⟨nearer, k⟩
  else if hit below then some ⟨below, k⟩
  else if hit above then some ⟨above, k⟩
  else none

/-- The place of the leading digit of a positive fraction: the greatest `e`
with `10 ^ e` at most `num / den`. -/
def leadingPlace (num den : Nat) : Int :=
  if den ≤ num then ((Nat.toDigits 10 (num / den)).length : Int) - 1
  else -((Nat.toDigits 10 ((den - 1) / num)).length : Int)

/-- The shortest decimal that reads back as the positive double
`mantissa * 2 ^ exponent`. Seventeen digits always suffice. -/
def shortest (tie : Tie) (mantissa : Nat) (exponent : Int) : Scientific :=
  let r := Rounded.of mantissa exponent
  let top := leadingPlace r.value r.den + 1
  ((List.range 19).findSome? fun (i : Nat) => r.onGrid tie (top - i)).getD ⟨0, 0⟩

/-- The place of the leading digit. -/
def leading (s : Scientific) : Int :=
  s.exponent + ((Nat.toDigits 10 s.digits).length : Int) - 1

end Scientific

end Tween
