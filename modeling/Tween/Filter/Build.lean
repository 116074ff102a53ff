/-
From a checked animation to its filter. An animated option is gated by the
window: the first value before it, the eased value inside, and a fallback that
holds the last value after it.
-/
import Tween.Descriptor.Animation
import Tween.Element
import Tween.Filter.Basic

namespace Tween

variable {α : Type} [Scalar α]

/-! ## Groups -/

/-- The names of the groups in which filters are chained, which are also the
names of the filters. -/
def rotateGroup : String := "rotate"

@[inherit_doc rotateGroup] def zoomGroup : String := "zoompan"

@[inherit_doc rotateGroup] def alphaGroup : String := "alpha"

@[inherit_doc rotateGroup] def overlayGroup : String := "overlay"

/-- The name of the renderer's own fade, which is never chained. -/
def fadeGroup : String := "fade"

namespace Animation

/-- The value inside the window, and the value held after it. An eased value
runs from the first to the last; a continuous one grows at its rate, `unit`
being the size of one authored unit, and is held where the window leaves it
unless the descriptor names a last value. -/
def windowValue (a : Animation α) (first last unit : α) : Except (Error α) (Expr α × α) :=
  if a.continuous then do
    let rate ← a.requireRate
    let rate := rate * unit
    let hold := if a.last.isSome then last else first + rate * a.time
    pure (.linear first rate 1.0 a.delay, hold)
  else .ok (a.ease.valueExpr first (last - first) a.time a.delay, last)

/-- A value gated by the window. -/
def gate (a : Animation α) (first : α) (value : Expr α) (hold : α) : Expr α :=
  .ifLt .time (.const a.delay) (.const first)
    (.ifBetween .time (.const a.delay) (.const a.finish) value (.elseSlot (.const hold)))

/-- A filter of a group with the animation's window. -/
def gatedFilter (a : Animation α) (group clock : String) (holds : Table α) : Filter α :=
  { name := group, options := .empty, clock
    phase := some a.phase
    group := some group
    window := some ⟨a.time, a.delay, holds⟩ }

/-- The renderer's own fade over the window. -/
def fadeFilter (a : Animation α) : Filter α :=
  { (((((Filter.plain fadeGroup "t").withText "t" a.phase.word).withNumber "st" a.delay).withNumber
      "d" a.time).withNumber "alpha" 1.0) with
    phase := some a.phase
    group := some fadeGroup }

/-- Opacity over the window. -/
def alphaFilter (a : Animation α) : Except (Error α) (Filter α) := do
  let (first, last) ← a.scalarEndpoints
  let (value, hold) ← a.windowValue first last 1.0
  pure ((a.gatedFilter alphaGroup "t" (Table.ofList [("alpha", hold)])).withExpr "alpha"
    (a.gate first value hold))

/-- One degree in radians. -/
def degree : α := Scalar.pi / 180.0

/-- Degrees in radians, to four places. -/
def toRadians (x : α) : α := Scalar.round (x * degree * 10000.0) / 10000.0

/-- The angle over the window, in radians. With padding, the output is as wide
and high as the diagonal, so that no corner is cut off. -/
def rotateFilter (a : Animation α) : Except (Error α) (Filter α) := do
  let (first, last) ← a.scalarEndpoints
  let first := toRadians first
  let last := toRadians last
  let (value, hold) ← a.windowValue first last degree
  let f := (a.gatedFilter rotateGroup "t" (Table.ofList [("a", hold)])).withExpr "a"
    (a.gate first value hold)
  let f := f.withText "c" "none"
  pure (if a.padded then (f.withText "ow" "hypot(iw,ih)").withText "oh" "hypot(iw,ih)" else f)

/-- The scale over the window, about the centre of the element. Scales below
one would leave part of the frame empty and are refused. -/
def zoomFilter (a : Animation α) (element : Element α) : Except (Error α) (Filter α) := do
  let (first, last) ← a.scalarEndpoints
  if first < 1.0 ∨ last < 1.0 then fault (.zoomTooSmall first last)
  else
    let (value, hold) ← a.windowValue first last 1.0
    let f := (a.gatedFilter zoomGroup "time" (Table.ofList [("z", hold)])).withExpr "z"
      (a.gate first value hold)
    let size := String.ofList (digits element.width ++ 'x' :: digits element.height)
    pure ((((f.withText "x" "iw/2-(iw/zoom/2)").withText "y" "ih/2-(ih/zoom/2)").withNumber
      "d" 1.0).withText "s" size)

/-- The position over the window, each axis by itself. -/
def overlayFilter (a : Animation α) (element : Element α) : Except (Error α) (Filter α) := do
  let (first, last) ← a.pointEndpoints element.position
  let (valueX, holdX) ← a.windowValue first.x last.x 1.0
  let (valueY, holdY) ← a.windowValue first.y last.y 1.0
  let f := a.gatedFilter overlayGroup "t" (Table.ofList [("x", holdX), ("y", holdY)])
  pure ((f.withExpr "x" (a.gate first.x valueX holdX)).withExpr "y" (a.gate first.y valueY holdY))

/-- The filter of an animation. -/
def toFilter (a : Animation α) (element : Element α) : Except (Error α) (Filter α) :=
  match a.kind with
  | .fade | .reveal => .ok a.fadeFilter
  | .alpha => a.alphaFilter
  | .rotate => a.rotateFilter
  | .zoom => a.zoomFilter element
  | .move => a.overlayFilter element

end Animation

end Tween
