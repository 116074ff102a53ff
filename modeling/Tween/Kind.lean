/-
What an animation changes, and whether it brings its element into view or takes
it away. Both are written as words in a descriptor; blanks around a word and
the case of ASCII letters do not matter.
-/
import Tween.Number.Scalar
import Tween.Text.Blank
import Tween.Text.LetterCase

namespace Tween

/-- The two ends of an element's stay. -/
inductive Phase where
  | entrance
  | exit
deriving DecidableEq, Repr, Inhabited

/-- What an animation changes. -/
inductive Kind where
  /-- Opacity, by the renderer's own fade. -/
  | fade
  /-- Another word for a fade. -/
  | reveal
  /-- Opacity, by an expression. -/
  | alpha
  | rotate
  | zoom
  | move
deriving DecidableEq, Repr, Inhabited

/-- A word as it is compared: no blanks around it, ASCII letters small. -/
def plainWord (s : String) : String := Text.lowerAscii (Text.trim s)

namespace Phase

/-- The word for a phase. -/
def word : Phase → String
  | entrance => "in"
  | exit => "out"

/-- The phase a word stands for. -/
def ofWord? (s : String) : Option Phase :=
  if plainWord s = "in" then some entrance
  else if plainWord s = "out" then some exit
  else none

/-- A phase is found by its word. -/
theorem ofWord?_word (p : Phase) : ofWord? p.word = some p := by cases p <;> decide +kernel

end Phase

namespace Kind

/-- The kind a word stands for. -/
def ofWord? (s : String) : Option Kind :=
  match plainWord s with
  | "fade" => some fade
  | "show" => some reveal
  | "alpha" => some alpha
  | "rotate" => some rotate
  | "zoom" => some zoom
  | "zoompan" => some zoom
  | "move" => some move
  | _ => none

/-- The name of a kind. -/
def name : Kind → String
  | fade => "Fade"
  | reveal => "Show"
  | alpha => "Alpha"
  | rotate => "Rotate"
  | zoom => "Zoom"
  | move => "Move"

/-- The value out of view and the value at rest, for the kinds that change one
number. Angles are in degrees. -/
def restValues? {α : Type} [Scalar α] : Kind → Option (α × α)
  | fade | reveal | alpha => some (0.0, 1.0)
  | rotate => some (180.0, 0.0)
  | zoom => some (2.0, 1.0)
  | move => none

end Kind

end Tween
