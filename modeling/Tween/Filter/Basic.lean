/-
Filters of the renderer while they are put together: options whose values may
be expressions, and what is needed to chain a filter behind another one of its
group.
-/
import Tween.Expr.Basic
import Tween.Kind
import Tween.Setting
import Tween.Table

namespace Tween

/-- The value of an option. -/
inductive OptionValue (α : Type) where
  | animated (expr : Expr α)
  | fixed (setting : Setting α)
deriving Repr, Inhabited

/-- The window of a filter, and the value each animated option holds once the
window has passed. -/
structure Window (α : Type) where
  time : α
  delay : α
  holds : Table α

/-- A filter under construction. -/
structure Filter (α : Type) where
  /-- The renderer's name for it. -/
  name : String
  options : Table (OptionValue α)
  /-- The name it has for the time. -/
  clock : String
  /-- Absent for filters that stand outside any chain. -/
  phase : Option Phase
  /-- The group in which it may be chained. -/
  group : Option String
  /-- Absent for filters that do not change over time. -/
  window : Option (Window α)

namespace Window

variable {α : Type} [Scalar α]

/-- The end of the window. -/
def finish (w : Window α) : α := w.delay + w.time

end Window

namespace Filter

variable {α : Type}

/-- A filter without options, outside any group. -/
def plain (name clock : String) : Filter α :=
  ⟨name, .empty, clock, none, none, none⟩

/-- The filter with an option set. -/
def withOption (f : Filter α) (key : String) (value : OptionValue α) : Filter α :=
  { f with options := f.options.insert key value }

def withExpr (f : Filter α) (key : String) (e : Expr α) : Filter α :=
  f.withOption key (.animated e)

def withNumber (f : Filter α) (key : String) (x : α) : Filter α :=
  f.withOption key (.fixed (.number x))

def withText (f : Filter α) (key s : String) : Filter α :=
  f.withOption key (.fixed (.text s))

/-- Whether a filter belongs to a group. -/
def isIn (f : Filter α) (group : String) : Bool := f.group == some group

/-- An option with every fallback in it collapsed. -/
def finalOption : OptionValue α → OptionValue α
  | .animated e => .animated e.collapseElse
  | .fixed s => .fixed s

/-- The filter with every fallback in its options collapsed. -/
def finalized (f : Filter α) : Filter α :=
  { f with options := f.options.map fun _ v => finalOption v }

end Filter

end Tween
