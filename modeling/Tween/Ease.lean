/-
Easing curves: how progress through a window, from 0 to 1, becomes progress
from the first value to the last. A curve has two forms, the number at a given
progress (`Ease.apply`) and an expression of it (`Ease.curve`), and a name.
Names are read freely: case, separators and a leading "ease" do not matter, and
the direction may stand on either side of the family.
-/
import Tween.Expr.Basic
import Tween.Text.LetterCase

namespace Tween

inductive Ease where
  | linear
  | inQuad | outQuad | inOutQuad
  | inCubic | outCubic | inOutCubic
  | inQuart | outQuart | inOutQuart
  | inSine | outSine | inOutSine
  | inExpo | outExpo
  | inCirc | outCirc
  | inBack | outBack
deriving DecidableEq, Repr, Inhabited

namespace Ease

/-- Every curve. -/
def all : List Ease :=
  [linear, inQuad, outQuad, inOutQuad, inCubic, outCubic, inOutCubic,
    inQuart, outQuart, inOutQuart, inSine, outSine, inOutSine,
    inExpo, outExpo, inCirc, outCirc, inBack, outBack]

theorem mem_all (e : Ease) : e ∈ all := by cases e <;> decide

/-- The full name of a curve. -/
def name : Ease → String
  | linear => "Linear"
  | inQuad => "InQuad" | outQuad => "OutQuad" | inOutQuad => "InOutQuad"
  | inCubic => "InCubic" | outCubic => "OutCubic" | inOutCubic => "InOutCubic"
  | inQuart => "InQuart" | outQuart => "OutQuart" | inOutQuart => "InOutQuart"
  | inSine => "InSine" | outSine => "OutSine" | inOutSine => "InOutSine"
  | inExpo => "InExpo" | outExpo => "OutExpo"
  | inCirc => "InCirc" | outCirc => "OutCirc"
  | inBack => "InBack" | outBack => "OutBack"

/-- The curve with a full name. -/
def ofName? (s : String) : Option Ease := all.find? fun e => e.name == s

/-! ## Names -/

/-- The curves that share a shape. -/
inductive Family where
  | quad | cubic | quart | sine | expo | circ | back
deriving DecidableEq, Repr

/-- The side of the window on which a curve changes slowly. -/
inductive Direction where
  | into
  | outOf
  | both
deriving DecidableEq, Repr

/-- The families, in the order in which a name is searched for them. -/
def Family.all : List Family := [quad, cubic, quart, sine, expo, circ, back]

/-- The word for a family. -/
def Family.word : Family → String
  | quad => "quad"
  | cubic => "cubic"
  | quart => "quart"
  | sine => "sine"
  | expo => "expo"
  | circ => "circ"
  | back => "back"

/-- The word for a direction. -/
def Direction.word : Direction → String
  | into => "in"
  | outOf => "out"
  | both => "inout"

/-- The direction with a given word. -/
def Direction.ofWord? (cs : List Char) : Option Direction :=
  [into, outOf, both].find? fun d => d.word.toList == cs

/-- The curve of a family in a direction. Three families have none that is slow
on both sides. -/
def of? : Family → Direction → Option Ease
  | .quad, .into => some inQuad
  | .quad, .outOf => some outQuad
  | .quad, .both => some inOutQuad
  | .cubic, .into => some inCubic
  | .cubic, .outOf => some outCubic
  | .cubic, .both => some inOutCubic
  | .quart, .into => some inQuart
  | .quart, .outOf => some outQuart
  | .quart, .both => some inOutQuart
  | .sine, .into => some inSine
  | .sine, .outOf => some outSine
  | .sine, .both => some inOutSine
  | .expo, .into => some inExpo
  | .expo, .outOf => some outExpo
  | .expo, .both => none
  | .circ, .into => some inCirc
  | .circ, .outOf => some outCirc
  | .circ, .both => none
  | .back, .into => some inBack
  | .back, .outOf => some outBack
  | .back, .both => none

/-- A text without the first occurrence of a word in it. -/
def dropFirst? (word : List Char) : List Char → Option (List Char)
  | [] => if word.isEmpty then some [] else none
  | c :: rest =>
    if word.isPrefixOf (c :: rest) then some ((c :: rest).drop word.length)
    else (dropFirst? word rest).map (c :: ·)

/-- The part of a name that tells curves apart: lower case, without
separators, and without one leading "ease". -/
def key (s : String) : List Char :=
  let cs := (s.toList.filter fun c => c != '_' && c != '-' && c != ' ').flatMap Text.lowerForm
  if "ease".toList.isPrefixOf cs then cs.drop 4 else cs

/-- The curve whose family occurs in a key with a direction around it. -/
def ofKey? (cs : List Char) : Option Ease :=
  if cs = "linear".toList then some linear
  else Family.all.findSome? fun f => do
    let rest ← dropFirst? f.word.toList cs
    let d ← Direction.ofWord? rest
    of? f d

/-- The curve a name stands for. -/
def parse? (s : String) : Option Ease := ofKey? (key s)

/-- A curve is found by its full name. -/
theorem ofName?_name (e : Ease) : ofName? e.name = some e := by cases e <;> rfl

/-- A full name is one of the names that are read for its curve. -/
theorem parse?_name (e : Ease) : parse? e.name = some e := by cases e <;> decide +kernel

/-! ## Curves -/

section

variable {α : Type} [Scalar α]

/-- How far the back curves overshoot. -/
def overshoot : α := 1.70158

/-- The square of a number. -/
def square (x : α) : α := x * x

/-- The third power of a number. -/
def cube (x : α) : α := x * (x * x)

/-- The fourth power of a number. -/
def fourth (x : α) : α := x * x * (x * x)

/-- The eased progress at progress `p`, which is brought between 0 and 1
first. -/
def apply (e : Ease) (p : α) : α :=
  let t := Scalar.clampUnit p
  match e with
  | linear => t
  | inQuad => t * t
  | outQuad => 1.0 - (1.0 - t) * (1.0 - t)
  | inOutQuad => if t < 0.5 then 2.0 * t * t else 1.0 - square (-2.0 * t + 2.0) / 2.0
  | inCubic => t * t * t
  | outCubic => 1.0 - cube (1.0 - t)
  | inOutCubic => if t < 0.5 then 4.0 * t * t * t else 1.0 - cube (-2.0 * t + 2.0) / 2.0
  | inQuart => fourth t
  | outQuart => 1.0 - fourth (1.0 - t)
  | inOutQuart => if t < 0.5 then 8.0 * fourth t else 1.0 - fourth (-2.0 * t + 2.0) / 2.0
  | inSine => 1.0 - Scalar.cos (t * Scalar.pi / 2.0)
  | outSine => Scalar.sin (t * Scalar.pi / 2.0)
  | inOutSine => -(Scalar.cos (Scalar.pi * t) - 1.0) / 2.0
  | inExpo => if t ≤ 0.0 then 0.0 else Scalar.pow 2.0 (10.0 * t - 10.0)
  | outExpo => if 1.0 ≤ t then 1.0 else 1.0 - Scalar.pow 2.0 (-10.0 * t)
  | inCirc => 1.0 - Scalar.sqrt (1.0 - t * t)
  | outCirc => Scalar.sqrt (1.0 - square (t - 1.0))
  | inBack => (overshoot + 1.0) * cube t - overshoot * t * t
  | outBack => 1.0 + (overshoot + 1.0) * cube (t - 1.0) + overshoot * square (t - 1.0)

/-- The eased progress as an expression of the progress `p`. -/
def curve (e : Ease) (p : Expr α) : Expr α :=
  let lit (x : α) : Expr α := .const x
  let mirrored := lit (-2.0) * p + 2.0
  match e with
  | linear => p
  | inQuad => p.pow 2.0
  | outQuad => 1.0 - (1.0 - p).pow 2.0
  | inOutQuad => .ifLt p 0.5 (2.0 * p.pow 2.0) (1.0 - mirrored.pow 2.0 / 2.0)
  | inCubic => p.pow 3.0
  | outCubic => 1.0 - (1.0 - p).pow 3.0
  | inOutCubic => .ifLt p 0.5 (4.0 * p.pow 3.0) (1.0 - mirrored.pow 3.0 / 2.0)
  | inQuart => p.pow 4.0
  | outQuart => 1.0 - (1.0 - p).pow 4.0
  | inOutQuart => .ifLt p 0.5 (8.0 * p.pow 4.0) (1.0 - mirrored.pow 4.0 / 2.0)
  | inSine => 1.0 - (p * lit (Scalar.pi / 2.0)).cos
  | outSine => (p * lit (Scalar.pi / 2.0)).sin
  | inOutSine => -((p * lit Scalar.pi).cos - 1.0) / 2.0
  | inExpo => .ifLe p 0.0 0.0 (Expr.pow 2.0 (10.0 * p - 10.0))
  | outExpo => .ifLt p 1.0 (1.0 - Expr.pow 2.0 (lit (-10.0) * p)) 1.0
  | inCirc => 1.0 - (1.0 - p.pow 2.0).sqrt
  | outCirc => (1.0 - (p - 1.0).pow 2.0).sqrt
  | inBack => lit (overshoot + 1.0) * p.pow 3.0 - lit overshoot * p.pow 2.0
  | outBack =>
    1.0 + lit (overshoot + 1.0) * (p - 1.0).pow 3.0 + lit overshoot * (p - 1.0).pow 2.0

/-- The value that starts at `base` when the window opens at `delay` and
changes by `change` along the curve within `duration`. -/
def valueExpr (e : Ease) (base change duration delay : α) : Expr α :=
  match e with
  | linear => .linear base change duration delay
  | _ =>
    let progress := (.time - .const delay) / .const duration
    let scaled := .const change * e.curve progress
    if base == 0.0 then scaled else .const base + scaled

end

end Ease

end Tween
