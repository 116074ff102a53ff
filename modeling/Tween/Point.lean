/-
Positions on the canvas, in pixels.
-/
import Tween.Json.Basic

namespace Tween

/-- A position in pixels. -/
@[ext] structure Point (α : Type) where
  x : α
  y : α
deriving Repr, Inhabited

/-- A position as data. -/
def Point.toJson {α : Type} [Scalar α] (p : Point α) : Json α :=
  .obj [("x", .ofNumber p.x), ("y", .ofNumber p.y)]

end Tween
