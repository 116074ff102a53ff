/-
Doubles as exact numbers, and doubles as the scalars animations run on.
`Exact.ofDouble` reads a double's bits as an integer times a power of two;
everything the library prints of a number is computed from that reading.
-/
import Tween.Number.Rounding
import Tween.Number.Scalar

namespace Tween

/-- The value a double stands for: `± mantissa * 2 ^ exponent` when finite.
The sign is kept for zeros too. -/
inductive Exact where
  | nan
  | infinite (negative : Bool)
  | finite (negative : Bool) (mantissa : Nat) (exponent : Int)
deriving DecidableEq, Repr

namespace Exact

/-- The value a double's 64 bits stand for: a sign bit, eleven bits of
exponent and fifty-two of mantissa, whose leading one is implied unless the
exponent is the least. -/
def ofBits (bits : Nat) : Exact :=
  let negative := bits / Nat.pow 2 63 % 2 == 1
  let biased : Nat := bits / Nat.pow 2 52 % Nat.pow 2 11
  let fraction : Nat := bits % Nat.pow 2 52
  if biased = Nat.pow 2 11 - 1 then
    if fraction = 0 then .infinite negative else .nan
  else if biased = 0 then .finite negative fraction (-1074)
  else .finite negative (Nat.pow 2 52 + fraction) (Int.ofNat biased - 1075)

/-- The value of a double. -/
def ofDouble (x : Float) : Exact := ofBits x.toBits.toNat

/-- A finite magnitude as a fraction. -/
def fraction (mantissa : Nat) (exponent : Int) : Nat × Nat :=
  (mantissa * Nat.pow 2 exponent.toNat, Nat.pow 2 (-exponent).toNat)

/-- A value in units of `10 ^ (-places)`. -/
def toDecimal (places : Nat) : Exact → Decimal
  | .nan => .nan
  | .infinite negative => .infinite negative
  | .finite negative mantissa exponent =>
    let (num, den) := fraction mantissa exponent
    .finite negative (roundHalfEven (num * Nat.pow 10 places) den)

end Exact

/-- The greatest whole number that is not greater than a double. A double with
no negative exponent is whole as it is, and so is a zero of either sign. -/
def floorDouble (x : Float) : Float :=
  match Exact.ofDouble x with
  | .finite negative mantissa exponent =>
    if 0 ≤ exponent ∨ mantissa = 0 then x
    else
      let signed : Int := if negative then -mantissa else mantissa
      Float.ofInt (signed / Nat.pow 2 (-exponent).toNat)
  | _ => x

instance : Scalar Float where
  decLt := inferInstance
  decLe := inferInstance
  ofInt := Float.ofInt
  isFinite := Float.isFinite
  pi := 3.141592653589793
  floor := floorDouble
  round := Float.round
  pow := Float.pow
  sin := Float.sin
  cos := Float.cos
  sqrt := Float.sqrt
  toDecimal := fun places x => (Exact.ofDouble x).toDecimal places

end Tween
