/-
JSON values over a number system. An integer is held exactly and a number with
a fraction as a scalar, so the two can be told apart. The fields of an object
are held in the order of their names, as `Table` keeps them.
-/
import Tween.Number.Scalar
import Tween.Table

namespace Tween

/-- A JSON value. -/
inductive Json (α : Type) where
  | null
  | bool (value : Bool)
  | int (value : Int)
  | num (value : α)
  | str (value : String)
  | arr (items : List (Json α))
  | obj (fields : List (String × Json α))
deriving Inhabited

namespace Json

variable {α : Type}

/-- The object with the fields of a table. -/
def ofTable (t : Table (Json α)) : Json α := .obj t.entries

/-- The fields of an object. -/
def fields? : Json α → Option (Table (Json α))
  | .obj fields => some (Table.ofList fields)
  | _ => none

/-- The text of a string. -/
def str? : Json α → Option String
  | .str s => some s
  | _ => none

/-- The elements of an array. -/
def items? : Json α → Option (List (Json α))
  | .arr items => some items
  | _ => none

/-- The word of a choice: a string, or an object whose only field has the word
for its name and null for its value. -/
def choice? : Json α → Option String
  | .str s => some s
  | .obj [(s, .null)] => some s
  | _ => none

def isNull : Json α → Bool
  | .null => true
  | _ => false

variable [Scalar α]

/-- The number of a numeric value. -/
def number? : Json α → Option α
  | .int i => some (Scalar.ofInt i)
  | .num x => some x
  | _ => none

/-- A number as a value; one that is not finite has no value but null. -/
def ofNumber (x : α) : Json α := if Scalar.isFinite x then .num x else .null

/-- Whether a value counts as a set flag: true, a number other than zero, a
text that is not empty, or any array or object. -/
def isTruthy : Json α → Bool
  | .null => false
  | .bool b => b
  | .int i => !((Scalar.ofInt i : α) == 0.0)
  | .num x => !(x == 0.0)
  | .str s => !s.isEmpty
  | .arr _ => true
  | .obj _ => true

end Json

end Tween
