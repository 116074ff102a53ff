/-
How numbers are written. A `Layout` says where positional notation ends and
whether a whole number keeps a point; the three layouts here are the plain one
of messages, the one that tells numbers from text in a disagreement, and the
one of number literals in data. `Decimal.text` is the compact form of renderer
options.
-/
import Tween.Number.Shortest

namespace Tween

/-- The decimal digits of a natural number. -/
def digits (n : Nat) : List Char := Nat.toDigits 10 n

/-- Digits with zeros in front, up to a given length. -/
def padded (length : Nat) (ds : List Char) : List Char :=
  List.replicate (length - ds.length) '0' ++ ds

/-- The minus sign of a negative number. -/
def sign (negative : Bool) : List Char := if negative then ['-'] else []

/-- Digits without the zeros at their end. -/
def withoutFinalZeros (ds : List Char) : List Char :=
  (ds.reverse.dropWhile (· == '0')).reverse

namespace Decimal

/-- The digits after the point, without final zeros: none, not even the point,
for a whole number. -/
def fractionText (places units : Nat) : List Char :=
  let f := units % Nat.pow 10 places
  if f = 0 then [] else '.' :: withoutFinalZeros (padded places (digits f))

/-- The compact form of a number held in units of `10 ^ (-places)`: no final
zeros, no bare point, and no sign on zero. -/
def text (places : Nat) : Decimal → String
  | .nan => "NaN"
  | .infinite negative => String.ofList (sign negative ++ "inf".toList)
  | .finite negative units =>
    if units = 0 then "0"
    else String.ofList
      (sign negative ++ digits (units / Nat.pow 10 places) ++ fractionText places units)

end Decimal

/-- A number as renderer options show it: rounded to six places, compactly. -/
def numberText {α : Type} [Scalar α] (x : α) : String := (Scalar.toDecimal 6 x).text 6

/-- Where the shortest digits of a number are written positionally, whether a
whole number keeps a point and one zero, and which of two equally near digits
is taken. -/
structure Layout where
  /-- The least place of a leading digit that is written positionally. -/
  lowest : Option Int
  /-- The greatest such place. -/
  highest : Option Int
  /-- A whole number is written with `.0`. -/
  keepsPoint : Bool
  /-- A power of ten greater than one is written with a plus sign. -/
  plusSign : Bool
  tie : Tie

namespace Layout

/-- Digits alone, however many zeros that takes: numbers inside messages. -/
def plain : Layout := ⟨none, none, false, false, .up⟩

/-- Numbers in the message about two option values that disagree. -/
def distinct : Layout := ⟨some (-4), some 15, true, false, .up⟩

/-- Number literals in data. -/
def literal : Layout := ⟨some (-5), some 15, true, true, .toEven⟩

/-- Whether a number whose leading digit has the given place is written
positionally. -/
def isPositional (l : Layout) (place : Int) : Bool :=
  l.lowest.all (fun p => decide (p ≤ place)) && l.highest.all (fun p => decide (place ≤ p))

/-- A decimal in positional notation. -/
def positional (l : Layout) (s : Scientific) : List Char :=
  let ds := digits s.digits
  if 0 ≤ s.exponent then
    ds ++ List.replicate s.exponent.toNat '0' ++ (if l.keepsPoint then ['.', '0'] else [])
  else
    let after := (-s.exponent).toNat
    let ds := padded (after + 1) ds
    ds.take (ds.length - after) ++ '.' :: ds.drop (ds.length - after)

/-- Digits in scientific notation: one digit, the others after a point, and
the power of ten of the first. -/
def scientific (plusSign : Bool) (ds : List Char) (place : Int) : List Char :=
  let mark := if place < 0 then ['-'] else if plusSign then ['+'] else []
  let power := 'e' :: (mark ++ digits place.natAbs)
  match ds with
  | [] => power
  | [d] => d :: power
  | d :: ds => d :: '.' :: (ds ++ power)

/-- The text of a value: its shortest digits in this layout. -/
def text (l : Layout) : Exact → String
  | .nan => "NaN"
  | .infinite negative => String.ofList (sign negative ++ "inf".toList)
  | .finite negative mantissa exponent =>
    let s := if mantissa = 0 then ⟨0, 0⟩ else Scientific.shortest l.tie mantissa exponent
    String.ofList (sign negative ++
      if mantissa = 0 || l.isPositional s.leading then l.positional s
      else scientific l.plusSign (digits s.digits) s.leading)

end Layout

/-- The text of a double: its shortest digits in this layout. -/
def Layout.write (l : Layout) (x : Float) : String := l.text (.ofDouble x)

end Tween
