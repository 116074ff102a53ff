/-
Why an animation cannot be compiled. Causes carry the values they speak of;
`Error.message` alone puts them into words.
-/
import Tween.Expr.Basic
import Tween.Kind
import Tween.Setting

namespace Tween

/-- What is wrong with a descriptor, or with filters that are to be chained. -/
inductive Fault (α : Type) where
  | notAnObject
  | unknownPhase (word : String)
  | unknownKind (word : String)
  | missingKind
  | phaseNotText
  | missingTime
  | timeNotPositive (time : α)
  | easeNotText
  | fieldNotFinite (key : String)
  | endpointNotFinite (key : String)
  | incompletePoint (key : String)
  | unresolvedSymbol (key symbol : String)
  | notAnEndpoint (key : String)
  | endpointNotNumber (key : String)
  | endpointNotPoint (key : String)
  | noScalarValue (kind : Kind)
  | missingEndpoints
  | missingRate
  | zoomTooSmall (first last : α)
  | optionNotFinite (key : String)
  | noWindow (family : String)
  | animatedMismatch (family key : String)
  | settingMismatch (family key : String) (held other : Setting α)
  | noHold (family key : String)
deriving Repr

/-- Why an animation cannot be compiled. -/
inductive Error (α : Type) where
  | unsupportedEase (name : String)
  | invalid (fault : Fault α)
  /-- A window opens before the one it follows has closed. -/
  | overlap (family : String) (opening closing : α)
  /-- An open position is left where a value is needed. -/
  | unresolved (slot : Slot)
  /-- Data that is not of the form it has to have. -/
  | malformed
  /-- Presets that cannot be read from a place. -/
  | unreadable (place : String)
deriving Repr

/-- A fault in words. -/
def Fault.message : Fault Float → String
  | .notAnObject => "animation descriptor must be a JSON object"
  | .unknownPhase word => "unknown showType '" ++ word ++ "'"
  | .unknownKind word => "unknown animation type '" ++ word ++ "'"
  | .missingKind => "animation is missing 'type'"
  | .phaseNotText => "showType must be a string"
  | .missingTime => "animation is missing numeric 'time'"
  | .timeNotPositive time => "animation time must be > 0 (got " ++ Layout.plain.write time ++ ")"
  | .easeNotText => "ease must be a string"
  | .fieldNotFinite key => key ++ " must be a finite number"
  | .endpointNotFinite key => key ++ " must be finite"
  | .incompletePoint key => key ++ " point must carry numeric x and y"
  | .unresolvedSymbol key symbol =>
    key ++ " has unresolved symbolic value '" ++ symbol ++ "'"
  | .notAnEndpoint key => key ++ " must be a number or an \x7bx, y\x7d point"
  | .endpointNotNumber key => key ++ " must be a number for this animation type"
  | .endpointNotPoint key => key ++ " must be an \x7bx, y\x7d point for move animations"
  | .noScalarValue kind => kind.name ++ " animations have no scalar value"
  | .missingEndpoints => "move animation needs 'from' or 'to'"
  | .missingRate => "continuous ('ing') animation needs 'add'"
  | .zoomTooSmall first last =>
    "zoom scale must be >= 1 (got " ++ Layout.plain.write first ++ " -> " ++ Layout.plain.write last ++ ")"
  | .optionNotFinite key => "option '" ++ key ++ "' is not finite"
  | .noWindow family => family ++ " filter carries no window data"
  | .animatedMismatch family key =>
    family ++ " filters disagree on animated option '" ++ key ++ "'"
  | .settingMismatch family key held other =>
    family ++ " filters disagree on option '" ++ key ++ "': " ++ held.shown ++ " vs " ++
      other.shown
  | .noHold family key => family ++ " option '" ++ key ++ "' has no hold value"

/-- An error in words. -/
def Error.message : Error Float → String
  | .unsupportedEase name => "unsupported ease: '" ++ name ++ "'"
  | .invalid fault => "invalid animation config: " ++ fault.message
  | .overlap family opening closing =>
    "overlapping animation windows: " ++ family ++ " window starting at " ++ Layout.plain.write opening ++
      " begins before the previous window ends at " ++ Layout.plain.write closing
  | .unresolved slot => "unresolved " ++ slot.name ++ " slot in filter expression"
  | .malformed => "serialization error"
  | .unreadable place => "read effect presets from '" ++ place ++ "'"

end Tween
