/-
The scene element an animation belongs to.
-/
import Tween.Point

namespace Tween

inductive ElementKind where
  | text
  | image
  | video
  | other
deriving DecidableEq, Repr, Inhabited

namespace ElementKind

/-- The word for a kind of element. -/
def word : ElementKind → String
  | text => "text"
  | image => "image"
  | video => "video"
  | other => "other"

/-- The kind a word stands for; every unknown word stands for another kind. -/
def ofWord (s : String) : ElementKind :=
  if s = "text" then text
  else if s = "image" then image
  else if s = "video" then video
  else other

/-- The kind a choice stands for. -/
def ofJson? {α : Type} (v : Json α) : Option ElementKind := v.choice?.map ofWord

end ElementKind

/-- What a compiled animation has to know of its element. Sizes are in whole
pixels, less than `2 ^ 32` where they come from data. -/
structure Element (α : Type) where
  id : String
  kind : ElementKind
  x : α
  y : α
  width : Nat
  height : Nat
  canvasWidth : Nat
  canvasHeight : Nat
deriving Repr

namespace Element

variable {α : Type}

/-- Where the element rests. -/
def position (e : Element α) : Point α := ⟨e.x, e.y⟩

def isText (e : Element α) : Bool := e.kind == .text

/-- The element at another place. -/
def placedAt (e : Element α) (x y : α) : Element α := { e with x, y }

/-- The element on a canvas of another size. -/
def onCanvas (e : Element α) (width height : Nat) : Element α :=
  { e with canvasWidth := width, canvasHeight := height }

variable [Scalar α]

/-- The element as data. -/
def toJson (e : Element α) : Json α :=
  .ofTable (Table.ofList
    [("id", .str e.id), ("type", .str e.kind.word), ("x", .ofNumber e.x), ("y", .ofNumber e.y),
      ("width", .int e.width), ("height", .int e.height),
      ("canvas_width", .int e.canvasWidth), ("canvas_height", .int e.canvasHeight)])

/-- A size: a whole number of pixels. -/
def size? : Json α → Option Nat
  | .int i => if 0 ≤ i && i < Nat.pow 2 32 then some i.toNat else none
  | _ => none

/-- The fields of an element, in the order in which an array lists them. -/
def fieldNames : List String :=
  ["id", "type", "x", "y", "width", "height", "canvas_width", "canvas_height"]

/-- The element with the given fields. Without a kind it is an image, and
without a position it rests at the origin. -/
def ofFields? (fields : Table (Json α)) : Option (Element α) := do
  let id ← (fields.get? "id").bind Json.str?
  let kind ← ((fields.get? "type").map ElementKind.ofJson?).getD (some .image)
  let x ← ((fields.get? "x").map Json.number?).getD (some 0.0)
  let y ← ((fields.get? "y").map Json.number?).getD (some 0.0)
  let width ← (fields.get? "width").bind size?
  let height ← (fields.get? "height").bind size?
  let canvasWidth ← (fields.get? "canvas_width").bind size?
  let canvasHeight ← (fields.get? "canvas_height").bind size?
  pure { id, kind, x, y, width, height, canvasWidth, canvasHeight }

/-- The element that data stands for: an object, whose other fields are passed
over, or an array of the values of all fields. -/
def ofJson? : Json α → Option (Element α)
  | .obj fields => ofFields? (Table.ofList fields)
  | .arr values =>
    if values.length = fieldNames.length then
      ofFields? (Table.ofList (fieldNames.zip values))
    else none
  | _ => none

end Element

end Tween
