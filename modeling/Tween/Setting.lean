/-
Options of a filter that do not change over time.
-/
import Tween.Number.Text
import Tween.Text.Quoted

namespace Tween

/-- The value of an option that does not change over time. -/
inductive Setting (α : Type) where
  | number (value : α)
  | text (value : String)
deriving Repr, Inhabited

namespace Setting

/-- Whether two filters in a chain may both hold these values: equal numbers or
equal texts. -/
def agrees {α : Type} [Scalar α] : Setting α → Setting α → Bool
  | .number x, .number y => x == y
  | .text s, .text t => s == t
  | _, _ => false

/-- The form in which a message about a disagreement shows a value. -/
def shown : Setting Float → String
  | .number x => "Number(" ++ Layout.distinct.write x ++ ")"
  | .text s => "Text(" ++ Text.shown s ++ ")"

end Setting

end Tween
