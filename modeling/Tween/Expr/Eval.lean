/-
The value of an expression at a time. Evaluation is lazy: only the branch a
test selects is evaluated, and the upper bound of an interval only where the
lower one holds, so a slot in a part not taken does no harm.
-/
import Tween.Expr.Basic

namespace Tween

variable {α : Type} [Scalar α]

def UnaryOp.apply : UnaryOp → α → α
  | .neg, x => -x
  | .sin, x => Scalar.sin x
  | .cos, x => Scalar.cos x
  | .sqrt, x => Scalar.sqrt x

def BinaryOp.apply : BinaryOp → α → α → α
  | .add, x, y => x + y
  | .sub, x, y => x - y
  | .mul, x, y => x * y
  | .div, x, y => x / y
  | .pow, x, y => Scalar.pow x y

def Relation.holds : Relation → α → α → Bool
  | .lt, x, y => decide (x < y)
  | .le, x, y => decide (x ≤ y)

/-- The value of a straight line at a time. -/
def linearValue (base change duration origin t : α) : α :=
  base + change * (t - origin) / duration

/-- The value at time `t`, or the slot that stands in the way. -/
def Expr.eval (t : α) : Expr α → Except Slot α
  | .const c => .ok c
  | .time => .ok t
  | .linear b c d o => .ok (linearValue b c d o t)
  | .unary op a => do
    let x ← a.eval t
    pure (op.apply x)
  | .binary op l r => do
    let x ← l.eval t
    let y ← r.eval t
    pure (op.apply x y)
  | .ifRel rel l r yes no => do
    let x ← l.eval t
    let y ← r.eval t
    if rel.holds x y then yes.eval t else no.eval t
  | .ifBetween v lo hi yes no => do
    let x ← v.eval t
    let low ← lo.eval t
    if low ≤ x then
      let high ← hi.eval t
      if x ≤ high then yes.eval t else no.eval t
    else no.eval t
  | .elseSlot _ => .error .fallback
  | .delaySlot => .error .delay

/-! ## Values of operations

Where its operands have values, an operation has the value of the operation on
numbers. -/

namespace Expr

variable {t x y : α} {a b : Expr α}

@[simp] theorem eval_const (c : α) : (Expr.const c).eval t = .ok c := rfl

@[simp] theorem eval_time : (Expr.time : Expr α).eval t = .ok t := rfl

@[simp] theorem eval_ofScientific (m : Nat) (s : Bool) (e : Nat) :
    (OfScientific.ofScientific m s e : Expr α).eval t =
      .ok (OfScientific.ofScientific m s e) := rfl

theorem eval_unary (op : UnaryOp) (ha : a.eval t = .ok x) :
    (Expr.unary op a).eval t = .ok (op.apply x) := by
  simp [Expr.eval, ha, bind, Except.bind, pure, Except.pure]

theorem eval_binary (op : BinaryOp) (ha : a.eval t = .ok x) (hb : b.eval t = .ok y) :
    (Expr.binary op a b).eval t = .ok (op.apply x y) := by
  simp [Expr.eval, ha, hb, bind, Except.bind, pure, Except.pure]

theorem eval_add (ha : a.eval t = .ok x) (hb : b.eval t = .ok y) :
    (a + b).eval t = .ok (x + y) := eval_binary .add ha hb

theorem eval_sub (ha : a.eval t = .ok x) (hb : b.eval t = .ok y) :
    (a - b).eval t = .ok (x - y) := eval_binary .sub ha hb

theorem eval_mul (ha : a.eval t = .ok x) (hb : b.eval t = .ok y) :
    (a * b).eval t = .ok (x * y) := eval_binary .mul ha hb

theorem eval_div (ha : a.eval t = .ok x) (hb : b.eval t = .ok y) :
    (a / b).eval t = .ok (x / y) := eval_binary .div ha hb

theorem eval_pow (ha : a.eval t = .ok x) (hb : b.eval t = .ok y) :
    (a.pow b).eval t = .ok (Scalar.pow x y) := eval_binary .pow ha hb

theorem eval_neg (ha : a.eval t = .ok x) : (-a).eval t = .ok (-x) := eval_unary .neg ha

theorem eval_sin (ha : a.eval t = .ok x) : a.sin.eval t = .ok (Scalar.sin x) :=
  eval_unary .sin ha

theorem eval_cos (ha : a.eval t = .ok x) : a.cos.eval t = .ok (Scalar.cos x) :=
  eval_unary .cos ha

theorem eval_sqrt (ha : a.eval t = .ok x) : a.sqrt.eval t = .ok (Scalar.sqrt x) :=
  eval_unary .sqrt ha

theorem eval_ifLt {yes no : Expr α} (ha : a.eval t = .ok x) (hb : b.eval t = .ok y) :
    (ifLt a b yes no).eval t = if x < y then yes.eval t else no.eval t := by
  simp [ifLt, Expr.eval, ha, hb, Relation.holds, bind, Except.bind]

theorem eval_ifLe {yes no : Expr α} (ha : a.eval t = .ok x) (hb : b.eval t = .ok y) :
    (ifLe a b yes no).eval t = if x ≤ y then yes.eval t else no.eval t := by
  simp [ifLe, Expr.eval, ha, hb, Relation.holds, bind, Except.bind]

end Expr

end Tween
