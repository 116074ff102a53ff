/-
Value expressions over time, in which a window's value and the values around
it are put together before any text is written. Two kinds of slot stand for
what is not known yet: a fallback, taken outside a window, which carries the
expression it collapses to, and the start of the window that follows. Filling
replaces the slots in view; collapsing also looks inside the fallbacks.
-/
import Tween.Number.Scalar

namespace Tween

/-- The kinds of open position in an expression. -/
inductive Slot where
  | fallback
  | delay
deriving DecidableEq, Repr

/-- The name of a slot in a message. -/
def Slot.name : Slot → String
  | .fallback => "else"
  | .delay => "delay"

inductive UnaryOp where
  | neg
  | sin
  | cos
  | sqrt
deriving DecidableEq, Repr

inductive BinaryOp where
  | add
  | sub
  | mul
  | div
  | pow
deriving DecidableEq, Repr

/-- A comparison of two values. -/
inductive Relation where
  | lt
  | le
deriving DecidableEq, Repr

/-- An expression over the time variable. -/
inductive Expr (α : Type) where
  | const (value : α)
  | time
  /-- `base + change * (t - origin) / duration`. -/
  | linear (base change duration origin : α)
  | unary (op : UnaryOp) (arg : Expr α)
  | binary (op : BinaryOp) (left right : Expr α)
  /-- One of two branches, by a comparison. -/
  | ifRel (rel : Relation) (left right yes no : Expr α)
  /-- One of two branches, by whether a value lies between two others. -/
  | ifBetween (value low high yes no : Expr α)
  /-- Open fallback with the expression it collapses to. -/
  | elseSlot (default : Expr α)
  /-- Open start of the window that follows. -/
  | delaySlot
deriving Inhabited, Repr

namespace Expr

variable {α : Type}

instance : Add (Expr α) := ⟨.binary .add⟩
instance : Sub (Expr α) := ⟨.binary .sub⟩
instance : Mul (Expr α) := ⟨.binary .mul⟩
instance : Div (Expr α) := ⟨.binary .div⟩
instance : Neg (Expr α) := ⟨.unary .neg⟩
instance [OfScientific α] : OfScientific (Expr α) :=
  ⟨fun m s e => .const (OfScientific.ofScientific m s e)⟩
instance : Coe α (Expr α) := ⟨.const⟩

def pow (e n : Expr α) : Expr α := .binary .pow e n

def sin (e : Expr α) : Expr α := .unary .sin e

def cos (e : Expr α) : Expr α := .unary .cos e

def sqrt (e : Expr α) : Expr α := .unary .sqrt e

/-- `yes` where `left < right`, else `no`. -/
def ifLt (left right yes no : Expr α) : Expr α := .ifRel .lt left right yes no

/-- `yes` where `left ≤ right`, else `no`. -/
def ifLe (left right yes no : Expr α) : Expr α := .ifRel .le left right yes no

/-- Every slot in view replaced: a fallback by what `fallback` makes of its
default, a delay by `delay`. The defaults themselves are not searched. -/
def mapSlots (e : Expr α) (fallback : Expr α → Expr α) (delay : Expr α) : Expr α :=
  match e with
  | .const c => .const c
  | .time => .time
  | .linear b c d o => .linear b c d o
  | .unary op a => .unary op (a.mapSlots fallback delay)
  | .binary op l r => .binary op (l.mapSlots fallback delay) (r.mapSlots fallback delay)
  | .ifRel rel l r yes no =>
    .ifRel rel (l.mapSlots fallback delay) (r.mapSlots fallback delay)
      (yes.mapSlots fallback delay) (no.mapSlots fallback delay)
  | .ifBetween v lo hi yes no =>
    .ifBetween (v.mapSlots fallback delay) (lo.mapSlots fallback delay)
      (hi.mapSlots fallback delay) (yes.mapSlots fallback delay) (no.mapSlots fallback delay)
  | .elseSlot d => fallback d
  | .delaySlot => delay

/-- Every fallback in view replaced by one expression. -/
def fillElse (e replacement : Expr α) : Expr α :=
  e.mapSlots (fun _ => replacement) .delaySlot

/-- Every delay in view replaced by a number. -/
def fillDelay (e : Expr α) (delay : α) : Expr α :=
  e.mapSlots .elseSlot (.const delay)

/-- Every fallback replaced by its own default, collapsed in turn. -/
def collapseElse : Expr α → Expr α
  | .const c => .const c
  | .time => .time
  | .linear b c d o => .linear b c d o
  | .unary op a => .unary op a.collapseElse
  | .binary op l r => .binary op l.collapseElse r.collapseElse
  | .ifRel rel l r y n =>
    .ifRel rel l.collapseElse r.collapseElse y.collapseElse n.collapseElse
  | .ifBetween v lo hi y n =>
    .ifBetween v.collapseElse lo.collapseElse hi.collapseElse y.collapseElse n.collapseElse
  | .elseSlot d => d.collapseElse
  | .delaySlot => .delaySlot

/-- The first slot in view, from left to right. -/
def firstSlot : Expr α → Option Slot
  | .const _ | .time | .linear _ _ _ _ => none
  | .unary _ a => a.firstSlot
  | .binary _ l r => l.firstSlot <|> r.firstSlot
  | .ifRel _ l r y n => l.firstSlot <|> r.firstSlot <|> y.firstSlot <|> n.firstSlot
  | .ifBetween v lo hi y n =>
    v.firstSlot <|> lo.firstSlot <|> hi.firstSlot <|> y.firstSlot <|> n.firstSlot
  | .elseSlot _ => some .fallback
  | .delaySlot => some .delay

end Expr

end Tween
