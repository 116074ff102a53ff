/-
Expressions in the notation of renderer options. Parentheses are written only
where the grammar needs them: an operand is enclosed if it binds less tightly
than its place asks for. A negative literal behind `+` or `-` gives its sign to
the operator, and a straight line leaves out the parts that change nothing.
-/
import Tween.Expr.Basic
import Tween.Number.Text

namespace Tween.Expr

variable {α : Type} [Scalar α]

/-- How tightly the text of an expression binds: 1 for sums, 2 for a leading
minus, 3 for products, 4 for all that needs no parentheses. -/
def binding : Expr α → Nat
  | .const c => if c < 0.0 then 2 else 4
  | .linear _ _ _ _ => 1
  | .unary .neg _ => 2
  | .binary .add _ _ => 1
  | .binary .sub _ _ => 1
  | .binary .mul _ _ => 3
  | .binary .div _ _ => 3
  | _ => 4

/-- The text of an operand where at least the given binding is asked for. -/
def operand (least : Nat) (e : Expr α) (text : String) : String :=
  if e.binding < least then "(" ++ text ++ ")" else text

/-- The right side of a sum or difference with its operator. -/
def addend (plus minus : String) (e : Expr α) (text : String) : String :=
  match e with
  | .const c =>
    if c < 0.0 then minus ++ numberText (-c) else plus ++ operand 3 e text
  | _ => plus ++ operand 3 e text

/-- The time since an origin. -/
def elapsedText (time : String) (origin : α) : String :=
  if origin == 0.0 then time
  else if origin < 0.0 then "(" ++ time ++ "+" ++ numberText (-origin) ++ ")"
  else "(" ++ time ++ "-" ++ numberText origin ++ ")"

/-- The part of a straight line that changes, without its sign. -/
def slopeText (time : String) (change duration origin : α) : String :=
  let elapsed := elapsedText time origin
  let size := Scalar.abs change
  let term := if size == 1.0 then elapsed else numberText size ++ "*" ++ elapsed
  if duration == 1.0 then term else term ++ "/" ++ numberText duration

/-- A straight line without the parts that change nothing. -/
def linearText (time : String) (base change duration origin : α) : String :=
  let term := slopeText time change duration origin
  if change == 0.0 then numberText base
  else if base == 0.0 then (if change < 0.0 then "-" else "") ++ term
  else numberText base ++ (if change < 0.0 then "-" else "+") ++ term

/-- A call of a function. -/
def call (name : String) (args : List String) : String :=
  name ++ "(" ++ ",".intercalate args ++ ")"

/-- The name of the function that compares. -/
def relationName : Relation → String
  | .lt => "lt"
  | .le => "lte"

/-- The text of an expression, with a name for the time, or the first slot in
the way. -/
def render (time : String) : Expr α → Except Slot String
  | .const c => .ok (numberText c)
  | .time => .ok time
  | .linear b c d o => .ok (linearText time b c d o)
  | .unary op a => do
    let x ← a.render time
    match op with
    | .neg => pure ("-" ++ operand 4 a x)
    | .sin => pure (call "sin" [x])
    | .cos => pure (call "cos" [x])
    | .sqrt => pure (call "sqrt" [x])
  | .binary op l r => do
    let x ← l.render time
    let y ← r.render time
    match op with
    | .add => pure (operand 1 l x ++ addend "+" "-" r y)
    | .sub => pure (operand 1 l x ++ addend "-" "+" r y)
    | .mul => pure (operand 3 l x ++ "*" ++ operand 4 r y)
    | .div => pure (operand 3 l x ++ "/" ++ operand 4 r y)
    | .pow => pure (call "pow" [x, y])
  | .ifRel rel l r yes no => do
    let x ← l.render time
    let y ← r.render time
    let a ← yes.render time
    let b ← no.render time
    pure (call "if" [call (relationName rel) [x, y], a, b])
  | .ifBetween v lo hi yes no => do
    let x ← v.render time
    let low ← lo.render time
    let high ← hi.render time
    let a ← yes.render time
    let b ← no.render time
    pure (call "if" [call "between" [x, low, high], a, b])
  | .elseSlot _ => .error .fallback
  | .delaySlot => .error .delay

end Tween.Expr
