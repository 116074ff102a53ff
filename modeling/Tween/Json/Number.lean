/-
Numbers in JSON text. A number without point and exponent is an integer where
it fits 64 bits; every other number is a double. A double is read from the
digits that fit 64 bits, scaled by a power of ten in double arithmetic: this is
exact for up to fifteen digits and powers up to 22, and close to a unit in the
last place beyond.
-/
import Tween.Json.Basic

namespace Tween.Json

/-- The value of a decimal digit. -/
def digitValue (c : Char) : Nat := c.toNat - '0'.toNat

/-- The largest significand that is kept. -/
def maxSignificand : Nat := Nat.pow 2 64 - 1

/-- A significand continued by the digits that still fit 64 bits, and the
number of digits from the first that does not. -/
def accumulate (significand : Nat) : List Char → Nat × Nat
  | [] => (significand, 0)
  | c :: rest =>
    let next := 10 * significand + digitValue c
    if next ≤ maxSignificand then accumulate next rest
    else (significand, rest.length + 1)

/-- The power of ten `10 ^ k` as a double. -/
def powerOfTen (k : Nat) : Float := Float.ofScientific 1 false k

/-- `significand * 10 ^ exponent` in double arithmetic; none when it is too
large. Powers below the least one that doubles hold are taken in steps, at most
two of which leave anything. -/
def scale (significand : Nat) (exponent : Int) : Option Float :=
  let f := Float.ofNat significand
  if 0 ≤ exponent then
    if f == 0.0 then some f
    else if exponent ≤ 308 then
      let x := f * powerOfTen exponent.toNat
      if x.isFinite then some x else none
    else none
  else if -308 ≤ exponent then some (f / powerOfTen (-exponent).toNat)
  else if -616 ≤ exponent then
    some (f / powerOfTen 308 / powerOfTen (-(exponent + 308)).toNat)
  else some 0.0

/-- Digits at the front of a text, and what follows them. -/
def spanDigits (cs : List Char) : List Char × List Char := cs.span Char.isDigit

/-- An exponent after its letter: the power of ten and what follows it. At
least one digit is needed. -/
def readExponent (cs : List Char) : Option (Int × List Char) :=
  let (negative, cs) : Bool × List Char :=
    match cs with
    | '+' :: rest => (false, rest)
    | '-' :: rest => (true, rest)
    | _ => (false, cs)
  match spanDigits cs with
  | ([], _) => none
  | (ds, rest) =>
    let e : Int := ds.foldl (fun n c => 10 * n + digitValue c) 0
    some (if negative then -e else e, rest)

/-- An optional fraction: its digits, which may not be missing after a
point. -/
def readFraction : List Char → Option (Option (List Char) × List Char)
  | '.' :: rest =>
    match spanDigits rest with
    | ([], _) => none
    | (ds, rest) => some (some ds, rest)
  | cs => some (none, cs)

/-- An optional exponent. -/
def readPower : List Char → Option (Option Int × List Char)
  | c :: rest =>
    if c = 'e' || c = 'E' then (readExponent rest).map fun (e, rest) => (some e, rest)
    else some (none, c :: rest)
  | [] => some (none, [])

/-- The value of a number's parts. -/
def ofParts (negative : Bool) (whole : List Char) (fraction : Option (List Char))
    (power : Option Int) : Option (Json Float) :=
  let (significand, dropped) := accumulate 0 whole
  let signed (x : Float) := if negative then -x else x
  match fraction, power with
  | none, none =>
    if dropped = 0 then
      if !negative then some (.int significand)
      else if 0 < significand && significand ≤ Nat.pow 2 63 then some (.int (-significand))
      else some (.num (-Float.ofNat significand))
    else (scale significand dropped).map fun x => .num (signed x)
  | _, _ =>
    let ds := fraction.getD []
    let (significand, left) := accumulate significand ds
    let exponent : Int := dropped - (ds.length - left) + power.getD 0
    (scale significand exponent).map fun x => .num (signed x)

/-- A number at the front of a text. A whole part of several digits does not
start with zero. -/
def readNumber (cs : List Char) : Option (Json Float × List Char) := do
  let (negative, cs) : Bool × List Char :=
    match cs with
    | '-' :: rest => (true, rest)
    | _ => (false, cs)
  let (whole, rest) ← match cs with
    | '0' :: rest => some (['0'], rest)
    | _ =>
      match spanDigits cs with
      | ([], _) => none
      | found => some found
  let (fraction, rest) ← readFraction rest
  let (power, rest) ← readPower rest
  let value ← ofParts negative whole fraction power
  pure (value, rest)

end Tween.Json
