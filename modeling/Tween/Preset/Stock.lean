/-
The stock of presets every renderer offers: fades, opacity, zooms, rotations,
and movements across each edge of the canvas, which fade as they move.
-/
import Tween.Ease
import Tween.Preset.Basic
import Tween.Symbol

namespace Tween.Catalog

variable {α : Type} [Scalar α]

/-- A descriptor with a window of one second from the start, and further
fields. -/
def stockSet (kind : String) (phase : Phase) (more : List (String × Json α)) :
    Table (Json α) :=
  Table.ofList
    ([("type", .str kind), ("showType", .str phase.word), ("time", .int 1), ("delay", .int 0)] ++
      more)

/-- The field in which a movement names the place outside the canvas. -/
def awayKey : Phase → String
  | .entrance => "from"
  | .exit => "to"

/-- The curve of a movement: it slows down where the element comes to rest. -/
def moveEase : Phase → String
  | .entrance => "quadOut"
  | .exit => "quadIn"

/-- A movement from or to a place outside the canvas, with a fade. -/
def stockMove (phase : Phase) (away : Symbol) : Preset α :=
  .many
    [stockSet "move" phase
      [(awayKey phase, .str away.word), ("ease", .str (moveEase phase))],
     stockSet "show" phase []]

/-- The presets that are one descriptor. -/
def stockSingles : List (String × Table (Json α)) :=
  [("fadeIn", stockSet "fade" .entrance []),
   ("fadeOut", stockSet "fade" .exit []),
   ("alphaIn", stockSet "alpha" .entrance []),
   ("alphaOut", stockSet "alpha" .exit []),
   ("zoomIn", stockSet "zoom" .entrance
     [("from", .num 1.5), ("to", .int 1), ("pad", .bool true)]),
   ("zoomOut", stockSet "zoom" .exit
     [("from", .int 1), ("to", .num 1.5), ("pad", .bool true)]),
   ("zoomingIn", stockSet "zoom" .entrance
     [("from", .int 1), ("ing", .bool true), ("add", .num 0.1), ("pad", .bool true)]),
   ("rotateIn", stockSet "rotate" .entrance
     [("from", .int 180), ("to", .int 0), ("ease", .str "quadOut")]),
   ("rotateOut", stockSet "rotate" .exit
     [("from", .int 0), ("to", .int 180), ("ease", .str "quadIn")]),
   ("rotatingIn", stockSet "rotate" .entrance
     [("from", .int 0), ("ing", .bool true), ("add", .int 90)])]

/-- The movements: direction of travel, phase, and the place outside the
canvas. -/
def stockMoves : List (String × Phase × Symbol) :=
  [("moveInLeft", .entrance, .leftOut),
   ("moveInRight", .entrance, .rightOut),
   ("moveInUp", .entrance, .bottomOut),
   ("moveInDown", .entrance, .topOut),
   ("moveOutLeft", .exit, .leftOut),
   ("moveOutRight", .exit, .rightOut),
   ("moveOutUp", .exit, .topOut),
   ("moveOutDown", .exit, .bottomOut)]

/-- The stock of presets. -/
def stock : Catalog α :=
  ⟨Table.ofList
    (stockSingles.map (fun (name, set) => (name, .single set)) ++
      stockMoves.map (fun (name, phase, away) => (name, stockMove phase away)))⟩

end Tween.Catalog
