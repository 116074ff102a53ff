/-
The numbers an animation is computed in. Every rule of the library that is a
matter of arithmetic — easing, windows, seams, the queries on a timeline — is
stated for any `Scalar`, so it runs on doubles and can be read over exact
numbers. `Decimal` is a number rounded to a fixed count of decimal places,
which is the form numbers take in renderer options.
-/
namespace Tween

/-- A number rounded to whole units of a power of ten, or the reason it has
no such rounding. The sign is kept apart: a negative number may round to no
units at all. -/
inductive Decimal where
  | nan
  | infinite (negative : Bool)
  | finite (negative : Bool) (units : Nat)
deriving DecidableEq, Repr

/-- A number system animations can be computed in. Comparison is decidable
but need not be total: a system may hold a value that compares with nothing,
such as the double "not a number". -/
class Scalar (α : Type) extends
    Add α, Sub α, Mul α, Div α, Neg α, OfScientific α, LT α, LE α, BEq α where
  decLt : DecidableLT α
  decLe : DecidableLE α
  /-- The number of an integer, rounded where the system is too coarse. -/
  ofInt : Int → α
  /-- Neither infinite nor undefined. -/
  isFinite : α → Bool
  pi : α
  floor : α → α
  /-- The nearest whole number, halves going away from zero. -/
  round : α → α
  pow : α → α → α
  sin : α → α
  cos : α → α
  sqrt : α → α
  /-- `toDecimal k x` is `x` in units of `10 ^ (-k)`: the nearest whole
  count, a half going to the even neighbour. -/
  toDecimal : Nat → α → Decimal

instance Scalar.instDecidableLT {α : Type} [Scalar α] : DecidableLT α := Scalar.decLt

instance Scalar.instDecidableLE {α : Type} [Scalar α] : DecidableLE α := Scalar.decLe

namespace Scalar

variable {α : Type} [Scalar α]

/-- The magnitude of a number. -/
def abs (x : α) : α := if x < 0.0 then -x else x

/-- The larger of two numbers, the first of two equal ones. A number that does
not equal itself gives way to the other. -/
def larger (a b : α) : α :=
  if a < b then b else if a == a then a else b

/-- `x` where it is positive, else zero. -/
def positivePart (x : α) : α := if 0.0 < x then x else 0.0

/-- `x` brought into the interval from 0 to 1. -/
def clampUnit (x : α) : α :=
  let x := if x < 0.0 then 0.0 else x
  if 1.0 < x then 1.0 else x

/-- The number of a natural number. -/
def ofNat (n : Nat) : α := ofInt (n : Int)

end Scalar

end Tween
