/-
Symbolic positions: words in place of a position, which mean a place relative
to an element and its canvas.
-/
import Tween.Descriptor.Basic
import Tween.Element

namespace Tween

/-- A symbolic position. -/
inductive Symbol where
  /-- Just outside the left edge of the canvas, on the element's own row. -/
  | leftOut
  /-- Just outside the right edge. -/
  | rightOut
  /-- Just above the canvas, in the element's own column. -/
  | topOut
  /-- Just below the canvas. -/
  | bottomOut
  /-- Where the element rests. -/
  | origin
deriving DecidableEq, Repr

namespace Symbol

/-- Every symbol. -/
def all : List Symbol := [leftOut, rightOut, topOut, bottomOut, origin]

/-- The word for a symbol. -/
def word : Symbol → String
  | leftOut => "left_out"
  | rightOut => "right_out"
  | topOut => "top_out"
  | bottomOut => "bottom_out"
  | origin => "origin"

/-- The symbol a word stands for. -/
def ofWord? (s : String) : Option Symbol := all.find? fun y => y.word == s

theorem mem_all (y : Symbol) : y ∈ all := by cases y <;> decide

/-- A symbol is found by its word. -/
theorem ofWord?_word (y : Symbol) : ofWord? y.word = some y := by cases y <;> rfl

variable {α : Type} [Scalar α]

/-- The position a symbol means for an element. -/
def place (e : Element α) : Symbol → Point α
  | leftOut => ⟨-Scalar.ofNat e.width, e.y⟩
  | rightOut => ⟨Scalar.ofNat e.canvasWidth, e.y⟩
  | topOut => ⟨e.x, -Scalar.ofNat e.height⟩
  | bottomOut => ⟨e.x, Scalar.ofNat e.canvasHeight⟩
  | origin => e.position

end Symbol

variable {α : Type} [Scalar α]

/-- The position a value means for an element, if the value is the word for a
symbol. -/
def Element.resolve? (e : Element α) (v : Json α) : Option (Json α) :=
  (v.str?.bind Symbol.ofWord?).map fun y => (y.place e).toJson

/-- A value with a symbol replaced by its position. -/
def Element.resolve (e : Element α) (v : Json α) : Json α := (e.resolve? v).getD v

/-- A descriptor with the symbols among its values replaced by positions. -/
def Descriptor.resolved (d : Descriptor α) (e : Element α) : Descriptor α :=
  ⟨d.fields.map fun _ v => e.resolve v⟩

end Tween
