/-
Filters as the renderer takes them: a name and options that are texts or
numbers, and the one line of text that stands for them. In that line the
characters that mean something to the renderer are escaped inside values.
-/
import Tween.Error
import Tween.Expr.Text
import Tween.Filter.Basic
import Tween.Json.Text

namespace Tween

/-- A filter ready for the renderer. -/
structure Spec (α : Type) where
  name : String
  options : Table (Json α)

variable {α : Type} [Scalar α]

/-- An option as data: an expression as its text, with the filter's name for
the time. -/
def OptionValue.toJson (clock key : String) :
    OptionValue α → Except (Error α) (Json α)
  | .animated e =>
    match e.render clock with
    | .ok s => .ok (.str s)
    | .error slot => .error (.unresolved slot)
  | .fixed (.number x) =>
    if Scalar.isFinite x then .ok (.num x) else .error (.invalid (.optionNotFinite key))
  | .fixed (.text s) => .ok (.str s)

/-- The filter as the renderer takes it. -/
def Filter.toSpec (f : Filter α) : Except (Error α) (Spec α) := do
  let options ← f.options.traverse (OptionValue.toJson f.clock)
  pure ⟨f.name, options⟩

namespace Spec

/-- Whether a character has a meaning in the line. -/
def isSpecial (c : Char) : Bool :=
  c == ',' || c == ':' || c == ';' || c == '[' || c == ']' || c == '\'' || c == '\\'

/-- A text with a backslash before every special character. -/
def escape (cs : List Char) : List Char :=
  cs.flatMap fun c => if isSpecial c then ['\\', c] else [c]

/-- The text of an option's value: a text as it is, a number in compact form,
and anything else as data. -/
def valueText : Json Float → String
  | .str s => s
  | .int i => numberText (Float.ofInt i)
  | .num x => numberText x
  | v => v.compact

/-- The options of the line, each behind the given mark and those after the
first behind a colon. -/
def optionsText : Char → List (String × Json Float) → List Char
  | _, [] => []
  | mark, (key, v) :: rest =>
    mark :: (key.toList ++ '=' :: (escape (valueText v).toList ++ optionsText ':' rest))

/-- The line that stands for a filter: its name, an equals sign, and the
options between colons. -/
def line (s : Spec Float) : String :=
  String.ofList (s.name.toList ++ optionsText '=' s.options.entries)

/-- The filter as data. -/
def toJson (s : Spec α) : Json α :=
  .ofTable (Table.ofList [("filter", .str s.name), ("options", .ofTable s.options)])

/-- The filter that data stands for: an object with the name and the options,
or an array of the two. -/
def ofJson? : Json α → Option (Spec α)
  | .obj fields => do
    let table := Table.ofList fields
    let name ← (table.get? "filter").bind Json.str?
    let options ← (table.get? "options").bind Json.fields?
    pure ⟨name, options⟩
  | .arr [name, options] => do
    let name ← name.str?
    let options ← options.fields?
    pure ⟨name, options⟩
  | _ => none

end Spec

end Tween
