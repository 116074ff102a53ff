/-
JSON values as text, without any space between tokens.
-/
import Tween.Json.Basic
import Tween.Number.Text
import Tween.Text.Quoted

namespace Tween.Json

/-- Texts joined by commas. -/
def commaJoined : List String → String
  | [] => ""
  | [s] => s
  | s :: rest => s ++ "," ++ commaJoined rest

mutual

/-- The compact text of a value. -/
def compact : Json Float → String
  | .null => "null"
  | .bool true => "true"
  | .bool false => "false"
  | .int i => String.ofList (sign (decide (i < 0)) ++ digits i.natAbs)
  | .num x => Layout.literal.write x
  | .str s => Text.quotedData s
  | .arr items => "[" ++ commaJoined (compactItems items) ++ "]"
  | .obj fields => "\x7b" ++ commaJoined (compactFields fields) ++ "\x7d"

/-- The compact texts of the elements of an array. -/
def compactItems : List (Json Float) → List String
  | [] => []
  | v :: rest => compact v :: compactItems rest

/-- The compact texts of fields. -/
def compactFields : List (String × Json Float) → List String
  | [] => []
  | (k, v) :: rest => (Text.quotedData k ++ ":" ++ compact v) :: compactFields rest

end

end Tween.Json
